import Mathlib.Data.Nat.Digits.Defs
import Mathlib.Data.Nat.Digits.Lemmas
import Mathlib.Data.Nat.ModEq

/-! Numbers as digits in a base, and the words that they are kept in while the digits are read;
    numbers as decimal text, and the text that `strtol` reads. -/

namespace machine.numeral

/-- The number with the digits `ds`, the first of which is the most significant. -/
def number (b : Nat) (ds : List Nat) : Nat := Nat.ofDigits b ds.reverse

@[simp] theorem number_nil (b : Nat) : number b [] = 0 := rfl

theorem number_concat (b : Nat) (ds : List Nat) (d : Nat) : number b (ds ++ [d]) = number b ds * b + d := by
  rw [number, List.reverse_concat, Nat.ofDigits_cons, number]
  ring

theorem number_zero_cons (b : Nat) (ds : List Nat) : number b (0 :: ds) = number b ds := by
  rw [number, List.reverse_cons, Nat.ofDigits_append, Nat.ofDigits_singleton, Nat.mul_zero, Nat.add_zero, number]

/-- A word of `w` bits holds `v` as far as it can; the flag tells whether it could not. -/
def Keeps (w v n : Nat) (lost : Bool) : Prop := n = v % 2 ^ w ∧ (lost = true ↔ 2 ^ w ≤ v)

theorem Keeps.lt {w v n : Nat} {lost : Bool} (h : Keeps w v n lost) : n < 2 ^ w :=
  h.1 ▸ Nat.mod_lt v (Nat.two_pow_pos w)

theorem Keeps.eq_of_lt {w v n : Nat} {lost : Bool} (h : Keeps w v n lost) (hv : v < 2 ^ w) : n = v :=
  h.1.trans (Nat.mod_eq_of_lt hv)

theorem keeps_zero (w : Nat) : Keeps w 0 0 false :=
  ⟨(Nat.zero_mod _).symm, by simp⟩

/-- A word that is not reduced gives back the number that was there before the last digit, and a
    word that is does not. -/
theorem div_step {m b d n : Nat} (hd : d < b) (hbm : b ≤ m) :
    (n * b + d) % m / b = n ↔ n * b + d < m := by
  have hb : 0 < b := by omega
  constructor
  · intro hdiv
    by_contra hle
    have hmod : (n * b + d) % m ≤ n * b + d - m := by
      rw [Nat.mod_eq_sub_mod (by omega)]
      exact Nat.mod_le _ _
    have hlt : (n * b + d) % m < n * b := by omega
    have := (Nat.div_lt_iff_lt_mul hb).mpr hlt
    omega
  · intro hlt
    rw [Nat.mod_eq_of_lt hlt, Nat.add_comm, Nat.add_mul_div_right _ _ hb, Nat.div_eq_of_lt hd, Nat.zero_add]

/-- One more digit. The division is left out below `guard`, where no digit can do harm. -/
theorem Keeps.digit {w v n b d guard : Nat} {lost : Bool} (h : Keeps w v n lost) (hd : d < b)
    (hguard : guard * b ≤ 2 ^ w) (hpos : 0 < guard) :
    Keeps w (v * b + d) ((n * b + d) % 2 ^ w)
      (lost || (decide (guard ≤ n) && decide ((n * b + d) % 2 ^ w / b ≠ n))) := by
  have hbw : b ≤ 2 ^ w := le_trans (Nat.le_mul_of_pos_left b hpos) hguard
  refine ⟨?_, ?_⟩
  · rw [h.1]
    exact (((Nat.mod_modEq v (2 ^ w)).mul_right b).add_right d)
  · rw [Bool.or_eq_true, Bool.and_eq_true, decide_eq_true_eq, decide_eq_true_eq, h.2, Ne, div_step hd hbw]
    by_cases hv : 2 ^ w ≤ v
    · have hgrows : v ≤ v * b + d := le_trans (Nat.le_mul_of_pos_right v (by omega)) (Nat.le_add_right _ _)
      exact iff_of_true (.inl hv) (hv.trans hgrows)
    · rw [h.eq_of_lt (by omega)]
      constructor
      · rintro (hle | ⟨-, hle⟩)
        · exact absurd hle hv
        · omega
      · intro hle
        refine .inr ⟨?_, by omega⟩
        by_contra hsmall
        have hstep : (v + 1) * b ≤ guard * b := Nat.mul_le_mul_right b (by omega)
        rw [Nat.add_mul, Nat.one_mul] at hstep
        omega

end machine.numeral

namespace machine.decimal

abbrev Byte := BitVec 8

/-- A number in decimal digits. -/
def decimal_bytes (n : Nat) : List Byte :=
  if n = 0 then [48#8] else (Nat.digits 10 n).reverse.map fun d => BitVec.ofNat 8 (48 + d)

def isspace (b : Byte) : Bool := b == 32#8 || (9#8 ≤ b && b ≤ 13#8)

/-- The value of a digit in a base up to 36; other characters have none below 36. -/
def digit_value (b : Byte) : Nat :=
  if 48#8 ≤ b ∧ b ≤ 57#8 then b.toNat - 48
  else if 97#8 ≤ b ∧ b ≤ 122#8 then b.toNat - 87
  else if 65#8 ≤ b ∧ b ≤ 90#8 then b.toNat - 55
  else 36

def digits_at (base : Nat) (bs : List Byte) : List Nat := (bs.map digit_value).takeWhile (· < base)

def number (base : Nat) (bs : List Byte) : Nat := (digits_at base bs).foldl (fun n d => n * base + d) 0

/-- The digits after a sign; the base is that of the prefix. -/
def unsigned_number (bs : List Byte) : Nat :=
  if bs.head? = some 48#8 then
    if (bs.tail.head? = some 120#8 ∨ bs.tail.head? = some 88#8) ∧ digits_at 16 bs.tail.tail ≠ [] then
      number 16 bs.tail.tail
    else number 8 bs
  else number 10 bs

/-- `strtol(nptr, NULL, 0)`, for numbers that fit. -/
def strtol (bs : List Byte) : Int :=
  let bs := bs.dropWhile isspace
  if bs.head? = some 45#8 then -unsigned_number bs.tail
  else if bs.head? = some 43#8 then unsigned_number bs.tail
  else unsigned_number bs

theorem digit_value_ofNat {d : Nat} (hd : d < 10) : digit_value (BitVec.ofNat 8 (48 + d)) = d := by
  interval_cases d <;> rfl

theorem length_decimal_le {n k : Nat} (hk : 0 < k) (hn : n < 10 ^ k) : (decimal_bytes n).length ≤ k := by
  rw [decimal_bytes]
  split
  · exact hk
  · rw [List.length_map, List.length_reverse]
    exact (Nat.digits_length_le_iff (by omega) n).mpr hn

/-- The digits of a number are all read, and no more. -/
theorem number_decimal {n : Nat} (hn : n ≠ 0) (k : Nat) :
    number 10 (decimal_bytes n ++ List.replicate k 32#8) = n := by
  have hdigits : digits_at 10 (decimal_bytes n ++ List.replicate k 32#8) = (Nat.digits 10 n).reverse := by
    have hmap : (decimal_bytes n).map digit_value = (Nat.digits 10 n).reverse := by
      rw [decimal_bytes, if_neg hn, List.map_map]
      refine (List.map_congr_left fun d hd => ?_).trans (List.map_id _)
      exact digit_value_ofNat (Nat.digits_lt_base (by omega) (List.mem_reverse.mp hd))
    have hspace : (List.replicate k 32#8).map digit_value = List.replicate k 36 := by
      rw [List.map_replicate]
      rfl
    rw [digits_at, List.map_append, hmap, hspace, List.takeWhile_append_of_pos]
    · cases k with
      | zero => simp
      | succ k => simp [List.replicate_succ]
    · intro d hd
      have := Nat.digits_lt_base (by omega : 1 < 10) (List.mem_reverse.mp hd)
      simpa using this
  rw [number, hdigits, List.foldl_reverse]
  have hfold := Nat.ofDigits_eq_foldr 10 (Nat.digits 10 n)
  rw [Nat.ofDigits_digits] at hfold
  refine Eq.trans ?_ hfold.symm
  congr 1
  funext d m
  simp only [Nat.cast_id]
  ring

/-- A number that is printed to the left of a field is read back. -/
theorem strtol_decimal (n k : Nat) : strtol (decimal_bytes n ++ List.replicate k 32#8) = n := by
  by_cases hn : n = 0
  · subst hn
    cases k with
    | zero => decide
    | succ k =>
      have hdrop : (decimal_bytes 0 ++ List.replicate (k + 1) 32#8).dropWhile isspace =
          decimal_bytes 0 ++ List.replicate (k + 1) 32#8 := rfl
      rw [strtol, hdrop]
      simp [decimal_bytes, unsigned_number, number, digits_at, List.replicate_succ, digit_value]
  · have hdigits : ∃ d ds, (Nat.digits 10 n).reverse = d :: ds ∧ 0 < d ∧ d < 10 := by
      have hne : Nat.digits 10 n ≠ [] := Nat.digits_ne_nil_iff_ne_zero.mpr hn
      cases hrev : (Nat.digits 10 n).reverse with
      | nil => exact absurd (List.reverse_eq_nil_iff.mp hrev) hne
      | cons d ds =>
        have hlast : (Nat.digits 10 n).getLast hne = d := by
          rw [← List.head_reverse (by rw [hrev]; simp)]
          simp [hrev]
        refine ⟨d, ds, rfl, ?_, ?_⟩
        · rw [← hlast]
          exact Nat.pos_of_ne_zero (Nat.getLast_digit_ne_zero 10 hn)
        · rw [← hlast]
          exact Nat.digits_lt_base (by omega) (List.getLast_mem hne)
    obtain ⟨d, ds, hrev, hpos, hlt⟩ := hdigits
    have hnumber := number_decimal hn k
    have hcons : decimal_bytes n ++ List.replicate k 32#8 = BitVec.ofNat 8 (48 + d) ::
        (ds.map (fun d => BitVec.ofNat 8 (48 + d)) ++ List.replicate k 32#8) := by
      rw [decimal_bytes, if_neg hn, hrev, List.map_cons, List.cons_append]
    rw [hcons] at hnumber ⊢
    generalize ds.map (fun d => BitVec.ofNat 8 (48 + d)) ++ List.replicate k 32#8 = tail at *
    have hspace : isspace (BitVec.ofNat 8 (48 + d)) = false := by
      interval_cases d <;> rfl
    have hminus : ¬BitVec.ofNat 8 (48 + d) = 45#8 := by
      interval_cases d <;> decide
    have hplus : ¬BitVec.ofNat 8 (48 + d) = 43#8 := by
      interval_cases d <;> decide
    have hzero : ¬BitVec.ofNat 8 (48 + d) = 48#8 := by
      interval_cases d <;> decide
    rw [strtol, List.dropWhile_cons_of_neg (by rw [hspace]; simp)]
    simp only [List.head?_cons, Option.some.injEq, hminus, hplus, if_false]
    rw [unsigned_number]
    simp only [List.head?_cons, Option.some.injEq, hzero, if_false]
    rw [hnumber]

end machine.decimal
