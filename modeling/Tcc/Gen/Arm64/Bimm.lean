import Tcc.Machine.A64

/-! The immediates of the logical instructions. -/

namespace tcc.arm64

open machine.a64

/-- `~x` of a `uint64_t`. -/
def compl (x : Nat) : Nat := 2 ^ 64 - 1 - x

/-- `if (!(x & ((1 << n) - 1))) x >>= n, pos += n;` -/
def drop_zeros (s : Nat × Nat) (n : Nat) : Nat × Nat :=
  if s.1 &&& (2 ^ n - 1) = 0 then (s.1 >>> n, s.2 + n) else s

/-- `if (!(~x & ((1 << n) - 1))) x >>= n, len += n;` -/
def drop_ones (s : Nat × Nat) (n : Nat) : Nat × Nat :=
  if compl s.1 &&& (2 ^ n - 1) = 0 then (s.1 >>> n, s.2 + n) else s

/-- `x >> n == (x & ((1 << (64 - n)) - 1))` -/
def repeats (x n : Nat) : Bool := x >>> n == x &&& (2 ^ (64 - n) - 1)

/-- The length of the part of `x` that is repeated. -/
def period (x : Nat) : Nat :=
  if repeats x 2 then 2
  else if repeats x 4 then 4
  else if repeats x 8 then 8
  else if repeats x 16 then 16
  else if repeats x 32 then 32
  else 64

/-- `N:immr:imms` of a run of ones, or of zeros for `neg`. -/
def encoding (neg : Bool) (rep pos len : Nat) : Nat :=
  let (pos, len) := if neg then ((pos + len) &&& (rep - 1), rep - len) else (pos, len)
  (0x1000 &&& rep <<< 6) ||| (((rep - 1) ^^^ 31) <<< 1 &&& 63) ||| ((rep - pos) &&& (rep - 1)) <<< 6 |||
    (len - 1)

def arm64_encode_bimm64 (x : Nat) : Int :=
  let neg := x &&& 1 != 0
  let x := if neg then compl x else x
  if x = 0 then -1
  else
    let rep := period x
    let x := if rep < 64 then x &&& (2 ^ rep - 1) else x
    let (x, pos) := [32, 16, 8, 4, 2, 1].foldl drop_zeros (x, 0)
    let (x, len) := [32, 16, 8, 4, 2, 1].foldl drop_ones (x, 0)
    if x ≠ 0 then -1 else encoding neg rep pos len

section search

variable {s : Nat × Nat} {n : Nat}

theorem mul_drop_zeros (s : Nat × Nat) (n : Nat) :
    (drop_zeros s n).1 * 2 ^ (drop_zeros s n).2 = s.1 * 2 ^ s.2 ∧ (drop_zeros s n).1 ≤ s.1 := by
  unfold drop_zeros
  rw [Nat.and_two_pow_sub_one_eq_mod]
  by_cases hzero : s.1 % 2 ^ n = 0
  · rw [if_pos hzero]
    simp only [Nat.shiftRight_eq_div_pow]
    refine ⟨?_, Nat.div_le_self _ _⟩
    rw [Nat.add_comm s.2 n, Nat.pow_add, ← Nat.mul_assoc, Nat.div_mul_cancel (Nat.dvd_of_mod_eq_zero hzero)]
  · rw [if_neg hzero]
    exact ⟨rfl, Nat.le_refl _⟩

/-- The zeros at the end are counted. -/
theorem mul_foldl_drop_zeros (ns : List Nat) (s : Nat × Nat) :
    (ns.foldl drop_zeros s).1 * 2 ^ (ns.foldl drop_zeros s).2 = s.1 * 2 ^ s.2 ∧
    (ns.foldl drop_zeros s).1 ≤ s.1 := by
  induction ns generalizing s with
  | nil => exact ⟨rfl, Nat.le_refl _⟩
  | cons n ns ih =>
    obtain ⟨hstep, hle⟩ := mul_drop_zeros s n
    obtain ⟨hrest, hrestle⟩ := ih (drop_zeros s n)
    exact ⟨hrest.trans hstep, hrestle.trans hle⟩

theorem mul_drop_ones (hn : n ≤ 64) (hs : s.1 < 2 ^ 64) :
    ((drop_ones s n).1 + 1) * 2 ^ (drop_ones s n).2 = (s.1 + 1) * 2 ^ s.2 ∧ (drop_ones s n).1 < 2 ^ 64 := by
  unfold drop_ones
  rw [Nat.and_two_pow_sub_one_eq_mod]
  by_cases hones : compl s.1 % 2 ^ n = 0
  · rw [if_pos hones]
    simp only [Nat.shiftRight_eq_div_pow]
    refine ⟨?_, lt_of_le_of_lt (Nat.div_le_self _ _) hs⟩
    have hdvd : 2 ^ n ∣ s.1 + 1 := by
      have hsum : compl s.1 + (s.1 + 1) = 2 ^ 64 := by unfold compl; omega
      exact (Nat.dvd_add_right (Nat.dvd_of_mod_eq_zero hones)).mp (hsum ▸ Nat.pow_dvd_pow 2 hn)
    obtain ⟨c, hc⟩ := hdvd
    have hpos : 0 < c := by
      rcases Nat.eq_zero_or_pos c with rfl | hpos
      · omega
      · exact hpos
    have hdiv : s.1 / 2 ^ n + 1 = c := by
      have hlast : s.1 = 2 ^ n - 1 + 2 ^ n * (c - 1) := by
        have hmul : 2 ^ n * c = 2 ^ n * (c - 1) + 2 ^ n := by
          rw [← Nat.mul_succ]
          congr 1
          omega
        have htwo := Nat.two_pow_pos n
        omega
      have htwo := Nat.two_pow_pos n
      rw [hlast, Nat.add_mul_div_left _ _ htwo, Nat.div_eq_of_lt (by omega)]
      omega
    rw [hdiv, hc, Nat.add_comm s.2 n, Nat.pow_add, ← Nat.mul_assoc, Nat.mul_comm c]
  · rw [if_neg hones]
    exact ⟨rfl, hs⟩

/-- The ones at the end are counted. -/
theorem mul_foldl_drop_ones {ns : List Nat} (hns : ∀ n ∈ ns, n ≤ 64) (hs : s.1 < 2 ^ 64) :
    ((ns.foldl drop_ones s).1 + 1) * 2 ^ (ns.foldl drop_ones s).2 = (s.1 + 1) * 2 ^ s.2 := by
  induction ns generalizing s with
  | nil => rfl
  | cons n ns ih =>
    obtain ⟨hstep, hlt⟩ := mul_drop_ones (hns n List.mem_cons_self) hs
    exact (ih (fun m hm => hns m (List.mem_cons_of_mem n hm)) hlt).trans hstep

end search

section period

variable {x : Nat}

theorem repeats_iff (x n : Nat) : repeats x n = true ↔ x / 2 ^ n = x % 2 ^ (64 - n) := by
  rw [repeats, beq_iff_eq, Nat.shiftRight_eq_div_pow, Nat.and_two_pow_sub_one_eq_mod]

/-- A number that is equal to itself without its last element. -/
theorem replicate_of_div {e n : Nat} (hlt : x < 2 ^ (e * (n + 1))) (heq : x / 2 ^ e = x % 2 ^ (e * n)) :
    x = replicate e (x % 2 ^ e) (n + 1) := by
  induction n generalizing x with
  | zero =>
    rw [replicate, replicate, Nat.mul_zero, Nat.add_zero]
    exact (Nat.mod_eq_of_lt (by simpa using hlt)).symm
  | succ n ih =>
    have hmod : x / 2 ^ e % 2 ^ e = x % 2 ^ e := by
      rw [heq, Nat.mul_succ, Nat.add_comm, Nat.pow_add, Nat.mod_mul_right_mod]
    have hdiv : x / 2 ^ e / 2 ^ e = x / 2 ^ e % 2 ^ (e * n) := by
      conv_lhs => rw [heq]
      rw [Nat.mul_succ, Nat.add_comm, Nat.pow_add, Nat.mod_mul_right_div_self]
    have hlow : x / 2 ^ e < 2 ^ (e * (n + 1)) := heq ▸ Nat.mod_lt _ (Nat.two_pow_pos _)
    have hrest := ih hlow hdiv
    rw [hmod] at hrest
    rw [replicate, ← hrest]
    exact (Nat.mod_add_div x (2 ^ e)).symm

theorem period_cases (x : Nat) :
    period x = 64 ∧ repeats x 32 = false ∨ period x ∈ [2, 4, 8, 16, 32] ∧ repeats x (period x) = true := by
  unfold period
  repeat' split
  all_goals simp_all

/-- The part of `x` that is repeated. -/
theorem replicate_period (hx : x < 2 ^ 64) : x = replicate (period x) (x % 2 ^ period x) (64 / period x) := by
  rcases period_cases x with ⟨h64, -⟩ | ⟨hmem, hrep⟩
  · rw [h64]
    exact (Nat.mod_eq_of_lt hx).symm
  · rw [repeats_iff] at hrep
    generalize period x = e at hmem hrep ⊢
    simp only [List.mem_cons, List.not_mem_nil, or_false] at hmem
    rcases hmem with rfl | rfl | rfl | rfl | rfl
    · exact replicate_of_div (n := 31) hx hrep
    · exact replicate_of_div (n := 15) hx hrep
    · exact replicate_of_div (n := 7) hx hrep
    · exact replicate_of_div (n := 3) hx hrep
    · exact replicate_of_div (n := 1) hx hrep

end period

section runs

variable {x : Nat}

/-- `x` or its complement, whichever is even. -/
def cleared (x : Nat) : Nat := if x &&& 1 != 0 then compl x else x

/-- Copies of `len` ones after `pos` zeros. -/
def repeated_run (rep pos len : Nat) : Nat := replicate rep ((2 ^ len - 1) * 2 ^ pos) (64 / rep)

theorem cleared_even (hx : x < 2 ^ 64) : cleared x % 2 = 0 ∧ cleared x < 2 ^ 64 := by
  unfold cleared compl
  rw [Nat.and_one_is_mod]
  rcases Nat.mod_two_eq_zero_or_one x with hodd | hodd
  · rw [hodd]
    exact ⟨hodd, hx⟩
  · rw [hodd, if_pos (by decide)]
    omega

theorem mem_period (x : Nat) : period x ∈ [2, 4, 8, 16, 32, 64] := by
  rcases period_cases x with ⟨h64, -⟩ | ⟨hmem, -⟩
  · rw [h64]
    decide
  · exact List.mem_append_left [64] hmem

theorem replicate_zero (e n : Nat) : replicate e 0 n = 0 := by
  induction n with
  | zero => rfl
  | succ n ih => rw [replicate, ih, Nat.mul_zero]

/-- A number that is shifted to nothing is a run of ones. -/
theorem exists_run {y rep : Nat} (hpos : 0 < y) (heven : y % 2 = 0) (hlt : y < 2 ^ rep) (hrep : rep ≤ 64)
    {s t : Nat × Nat} (hs : s = [32, 16, 8, 4, 2, 1].foldl drop_zeros (y, 0))
    (ht : t = [32, 16, 8, 4, 2, 1].foldl drop_ones (s.1, 0)) (hzero : t.1 = 0) :
    y = (2 ^ t.2 - 1) * 2 ^ s.2 ∧ 0 < s.2 ∧ 0 < t.2 ∧ s.2 + t.2 ≤ rep := by
  obtain ⟨hzeros, hle⟩ := mul_foldl_drop_zeros [32, 16, 8, 4, 2, 1] (y, 0)
  rw [← hs, Nat.pow_zero, Nat.mul_one] at hzeros
  rw [← hs] at hle
  have hbound : s.1 < 2 ^ 64 := lt_of_le_of_lt hle
    (lt_of_lt_of_le hlt (Nat.pow_le_pow_right (by decide) hrep))
  have hones := mul_foldl_drop_ones (by decide : ∀ n ∈ [32, 16, 8, 4, 2, 1], n ≤ 64)
    (show (s.1, 0).1 < 2 ^ 64 from hbound)
  rw [← ht, hzero, Nat.zero_add, Nat.one_mul, Nat.pow_zero, Nat.mul_one] at hones
  have hvalue : y = (2 ^ t.2 - 1) * 2 ^ s.2 := by
    rw [hones, Nat.add_sub_cancel]
    exact hzeros.symm
  have hlen : 0 < t.2 := by
    rcases Nat.eq_zero_or_pos t.2 with h0 | h0
    · rw [h0] at hvalue
      omega
    · exact h0
  have htwo : 2 ^ t.2 = 2 * 2 ^ (t.2 - 1) := by
    rw [← Nat.pow_succ']
    congr 1
    omega
  have hshift : 0 < s.2 := by
    rcases Nat.eq_zero_or_pos s.2 with h0 | h0
    · rw [h0, htwo] at hvalue
      have := Nat.two_pow_pos (t.2 - 1)
      omega
    · exact h0
  refine ⟨hvalue, hshift, hlen, ?_⟩
  by_contra hlong
  have hhigh : 2 ^ rep ≤ 2 ^ (t.2 - 1) * 2 ^ s.2 := by
    rw [← Nat.pow_add]
    exact Nat.pow_le_pow_right (by decide) (by omega)
  have hmore : 2 ^ (t.2 - 1) * 2 ^ s.2 ≤ y := by
    rw [hvalue]
    apply Nat.mul_le_mul_right
    have := Nat.two_pow_pos (t.2 - 1)
    omega
  omega

theorem encode_eq (x : Nat) :
    arm64_encode_bimm64 x =
      if cleared x = 0 then (-1 : Int)
      else
        let rep := period (cleared x)
        let s := [32, 16, 8, 4, 2, 1].foldl drop_zeros
          (if rep < 64 then cleared x &&& (2 ^ rep - 1) else cleared x, 0)
        let t := [32, 16, 8, 4, 2, 1].foldl drop_ones (s.1, 0)
        if t.1 ≠ 0 then -1 else (encoding (x &&& 1 != 0) rep s.2 t.2 : Int) := rfl

/-- What is encoded is a run of ones that is repeated, or its complement. -/
theorem run_of_encode (hx : x < 2 ^ 64) (henc : arm64_encode_bimm64 x ≠ -1) :
    ∃ pos len, 0 < pos ∧ 0 < len ∧ pos + len ≤ period (cleared x) ∧ cleared x = repeated_run
      (period (cleared x)) pos len ∧
      arm64_encode_bimm64 x = encoding (x &&& 1 != 0) (period (cleared x)) pos len := by
  obtain ⟨heven, hlt⟩ := cleared_even hx
  have hwhole := replicate_period hlt
  have hmem := mem_period (cleared x)
  rw [encode_eq] at henc ⊢
  have hnonzero : cleared x ≠ 0 := fun hzero => henc (if_pos hzero)
  rw [if_neg hnonzero] at henc ⊢
  generalize period (cleared x) = rep at hwhole hmem henc ⊢
  have hrep : 0 < rep ∧ rep ≤ 64 := by
    simp only [List.mem_cons, List.not_mem_nil, or_false] at hmem
    omega
  have hpart : (if rep < 64 then cleared x &&& (2 ^ rep - 1) else cleared x) = cleared x % 2 ^ rep := by
    split
    · exact Nat.and_two_pow_sub_one_eq_mod _ _
    · rw [show rep = 64 by omega]
      exact (Nat.mod_eq_of_lt hlt).symm
  simp only [hpart] at henc ⊢
  have hpartpos : 0 < cleared x % 2 ^ rep := by
    rcases Nat.eq_zero_or_pos (cleared x % 2 ^ rep) with h0 | h0
    · rw [h0, replicate_zero] at hwhole
      exact absurd hwhole hnonzero
    · exact h0
  have hparteven : cleared x % 2 ^ rep % 2 = 0 := by
    rw [Nat.mod_mod_of_dvd _ (dvd_pow_self 2 (by omega))]
    exact heven
  generalize hs : [32, 16, 8, 4, 2, 1].foldl drop_zeros (cleared x % 2 ^ rep, 0) = s at henc ⊢
  generalize ht : [32, 16, 8, 4, 2, 1].foldl drop_ones (s.1, 0) = t at henc ⊢
  have hzero : t.1 = 0 := by
    by_contra hrest
    exact henc (if_pos hrest)
  obtain ⟨hvalue, hpos, hlen, hsum⟩ :=
    exists_run hpartpos hparteven (Nat.mod_lt _ (Nat.two_pow_pos rep)) hrep.2 hs.symm ht.symm hzero
  refine ⟨s.2, t.2, hpos, hlen, hsum, ?_, if_neg (not_not_intro hzero)⟩
  rw [hvalue] at hwhole
  exact hwhole

end runs

section decisions

/-- What `DecodeBitMasks` gives for an encoding. -/
def run_ok (neg : Bool) (rep pos len : Nat) : Bool :=
  let n := encoding neg rep pos len
  n / 2 ^ 12 == (if rep = 64 then 1 else 0) &&
    DecodeBitMasks (n / 2 ^ 12) (n % 2 ^ 6) (n / 2 ^ 6 % 2 ^ 6) ==
      some (if neg then compl (repeated_run rep pos len) else repeated_run rep pos len)

/-- `run_ok` for all runs of an element. -/
def runs_ok (rep : Nat) : Bool :=
  (List.range rep).all fun i => (List.range (rep - (i + 1))).all fun j =>
    run_ok false rep (i + 1) (j + 1) && run_ok true rep (i + 1) (j + 1)

theorem runs_ok_all : ∀ rep ∈ [2, 4, 8, 16, 32, 64], runs_ok rep = true := by decide +kernel

/-- The encoding of a run is decoded to the run. -/
theorem run_ok_all {rep pos len : Nat} (hrep : rep ∈ [2, 4, 8, 16, 32, 64]) (hpos : 0 < pos) (hlen : 0 < len)
    (hsum : pos + len ≤ rep) (neg : Bool) : run_ok neg rep pos len = true := by
  have hruns := List.all_eq_true.mp (runs_ok_all rep hrep) (pos - 1) (List.mem_range.mpr (by omega))
  rw [show pos - 1 + 1 = pos by omega] at hruns
  have hrun := List.all_eq_true.mp hruns (len - 1) (List.mem_range.mpr (by omega))
  rw [show len - 1 + 1 = len by omega, Bool.and_eq_true] at hrun
  cases neg with
  | false => exact hrun.1
  | true => exact hrun.2

/-- That what the fields give has an encoding. -/
def mask_ok (N imms immr : Nat) : Bool :=
  match DecodeBitMasks N imms immr with
  | none => true
  | some v => arm64_encode_bimm64 v != -1

/-- `mask_ok` for all fields. -/
def masks_ok (N rotations : Nat) : Bool :=
  (List.range 64).all fun imms => (List.range rotations).all fun immr => mask_ok N imms immr

theorem masks_ok_all : masks_ok 0 32 = true ∧ masks_ok 1 64 = true := by decide +kernel

theorem mask_ok_of_masks_ok {N rotations imms immr : Nat} (hok : masks_ok N rotations = true) (himms : imms < 64)
    (himmr : immr < rotations) : mask_ok N imms immr = true :=
  List.all_eq_true.mp (List.all_eq_true.mp hok imms (List.mem_range.mpr himms)) immr (List.mem_range.mpr himmr)

/-- An element of at most 32 bits is rotated by less than 32. -/
theorem decode_mod (imms immr : Nat) : DecodeBitMasks 0 imms (immr % 32) = DecodeBitMasks 0 imms immr := by
  have hlen : (64 * 0 + (63 - imms)).log2 ≤ 5 := by
    rcases Nat.eq_zero_or_pos (63 - imms) with h0 | h0
    · rw [h0]
      decide
    · exact Nat.le_of_lt_succ ((Nat.log2_lt (by omega)).mpr (by omega))
  have hmod : immr % 32 &&& (2 ^ (64 * 0 + (63 - imms)).log2 - 1) = immr &&&
    (2 ^ (64 * 0 + (63 - imms)).log2 - 1) := by
    rw [Nat.and_two_pow_sub_one_eq_mod, Nat.and_two_pow_sub_one_eq_mod]
    exact Nat.mod_mod_of_dvd immr (Nat.pow_dvd_pow 2 hlen)
  unfold DecodeBitMasks
  simp only [hmod]

/-- What is decoded has an encoding. -/
theorem encode_of_decode {N imms immr v : Nat} (hN : N < 2) (himms : imms < 64) (himmr : immr < 64)
    (hdecode : DecodeBitMasks N imms immr = some v) : arm64_encode_bimm64 v ≠ -1 := by
  have hok : mask_ok N imms immr = true := by
    rcases (by omega : N = 0 ∨ N = 1) with rfl | rfl
    · have hsmall := mask_ok_of_masks_ok masks_ok_all.1 himms (Nat.mod_lt immr (by decide))
      rwa [mask_ok, decode_mod, ← mask_ok] at hsmall
    · exact mask_ok_of_masks_ok masks_ok_all.2 himms himmr
  rw [mask_ok, hdecode] at hok
  simpa using hok

end decisions

section encoder

variable {x : Nat}

theorem compl_cleared (hx : x < 2 ^ 64) : (if x &&& 1 != 0 then compl (cleared x) else cleared x) = x := by
  unfold cleared compl
  split
  · omega
  · rfl

/-- The fields of an encoding are decoded to the constant. -/
theorem decode_of_encode (hx : x < 2 ^ 64) (henc : arm64_encode_bimm64 x ≠ -1) :
    ∃ n : Nat, arm64_encode_bimm64 x = n ∧ n < 2 ^ 13 ∧
      n / 2 ^ 12 = (if period (cleared x) = 64 then 1 else 0) ∧
      DecodeBitMasks (n / 2 ^ 12) (n % 2 ^ 6) (n / 2 ^ 6 % 2 ^ 6) = some x := by
  obtain ⟨pos, len, hpos, hlen, hsum, hrun, hvalue⟩ := run_of_encode hx henc
  have hok := run_ok_all (mem_period (cleared x)) hpos hlen hsum (x &&& 1 != 0)
  rw [run_ok, Bool.and_eq_true, beq_iff_eq, beq_iff_eq, ← hrun, compl_cleared hx] at hok
  refine ⟨_, hvalue, ?_, hok⟩
  have hhigh := hok.1
  split at hhigh <;> omega

end encoder

end tcc.arm64
