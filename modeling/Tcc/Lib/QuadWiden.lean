import Tcc.Lib.QuadAdd

/-! `__extendsftf2` and `__extenddftf2` of `lib/lib-arm64.c`. -/

namespace tcc.lib.quad

open machine.ieee machine.jam

/-- The loop over `adj`, from what is left for it: what it adds. It ends at zero since the number is not. -/
def f3_adjust {w : Nat} (m : BitVec w) : Nat → Nat
  | 0 => 0
  | n + 1 => if m >>> (n + 1) = 0 then f3_adjust m n + 1 else 0

def extendsftf2 (a : BitVec 32) : U128 :=
  let aa := a.setWidth 64
  if a <<< 1 = 0 then { x0 := 0, x1 := aa <<< 32 }
  else if a <<< 1 >>> 24 = 255#32 then
    { x0 := 0, x1 := 0x7fff000000000000#64 ||| aa >>> 31 <<< 63 ||| aa <<< 41 >>> 16 ||| word (a <<< 9 != 0) <<< 47 }
  else if a <<< 1 >>> 24 = 0 then
    let adj := f3_adjust (a <<< 1 >>> 1) 23
    { x0 := 0, x1 := aa >>> 31 <<< 63 ||| (16256#64 - BitVec.ofNat 64 adj + 1#64) <<< 48 |||
      aa <<< adj <<< 41 >>> 16 }
  else
    { x0 := 0, x1 := aa >>> 31 <<< 63 ||| ((aa >>> 23 &&& 255#64) + 16256#64) <<< 48 ||| aa <<< 41 >>> 16 }

def extenddftf2 (a : BitVec 64) : U128 :=
  if a <<< 1 = 0 then { x0 := a <<< 60, x1 := a }
  else if a <<< 1 >>> 53 = 2047#64 then
    { x0 := a <<< 60,
      x1 := 0x7fff000000000000#64 ||| a >>> 63 <<< 63 ||| a <<< 12 >>> 16 ||| word (a <<< 12 != 0) <<< 47 }
  else if a <<< 1 >>> 53 = 0 then
    let adj := f3_adjust (a <<< 1 >>> 1) 52
    { x0 := a <<< 60 <<< adj, x1 := a >>> 63 <<< 63 ||| (15360#64 - BitVec.ofNat 64 adj + 1#64) <<< 48 |||
      a <<< adj <<< 12 >>> 16 }
  else
    { x0 := a <<< 60,
      x1 := a >>> 63 <<< 63 ||| ((a >>> 52 &&& 2047#64) + 15360#64) <<< 48 ||| a <<< 12 >>> 16 }

/-- The bits of a number of one word as a pattern. -/
def word_pattern {w : Nat} (x : BitVec w) : Pattern := ⟨x.msb, x.toNat % 2 ^ (w - 1)⟩

section fields

/-- The shift that brings the leading bit of a number to a place. -/
theorem f3_adjust_spec {w : Nat} {m : BitVec w} {n : Nat} (hne : m.toNat ≠ 0) (hlt : m.toNat < 2 ^ (n + 1)) :
    f3_adjust m n ≤ n ∧ 2 ^ n ≤ m.toNat * 2 ^ f3_adjust m n ∧ m.toNat * 2 ^ f3_adjust m n < 2 ^ (n + 1) := by
  induction n with
  | zero => exact ⟨le_refl _, by simp [f3_adjust]; omega, by simpa [f3_adjust] using hlt⟩
  | succ n ih =>
    have hzero : m >>> (n + 1) = 0 ↔ m.toNat < 2 ^ (n + 1) := by
      rw [eq_zero_iff, toNat_shr, Nat.div_eq_zero_iff]
      simp
    unfold f3_adjust
    split
    · rename_i hsmall
      obtain ⟨hle, hlo, hhi⟩ := ih (hzero.mp hsmall)
      rw [pow_succ _ (f3_adjust m n), ← Nat.mul_assoc, pow_succ _ n, pow_succ _ (n + 1)]
      exact ⟨by omega, by omega, by omega⟩
    · rename_i hlarge
      rw [hzero] at hlarge
      exact ⟨by omega, by omega, by omega⟩

/-- The fields in the order of the conversions. -/
theorem pattern_or_fields {sgn : Bool} {S E F x0 : BitVec 64} (hS : S = word sgn <<< 63) (hE : E.toNat < 2 ^ 15)
    (hF : F.toNat < 2 ^ 48) :
    U128.pattern ⟨x0, S ||| E <<< 48 ||| F⟩ = ⟨sgn, E.toNat * 2 ^ 112 + (F.toNat * 2 ^ 64 + x0.toNat)⟩ := by
  have hof : E = BitVec.ofNat 64 E.toNat := (BitVec.ofNat_toNat 64 E).symm.trans (by rw [BitVec.ofNat_toNat])
  have hor : S ||| E <<< 48 ||| F = F ||| BitVec.ofNat 64 E.toNat <<< 48 ||| word sgn <<< 63 := by
    rw [hS, ← hof, BitVec.or_comm, BitVec.or_comm (word sgn <<< 63), BitVec.or_assoc]
  rw [hor, pattern_fields sgn hE hF]

theorem isNan_of_le {x x0 : BitVec 64} (h : 0x7fff800000000000 ≤ x.toNat % 2 ^ 63) :
    binary128.IsNan (U128.pattern ⟨x0, x⟩) := by
  have hmag : (U128.pattern ⟨x0, x⟩).magnitude = (x.toNat * 2 ^ 64 + x0.toNat) % 2 ^ 127 := rfl
  rw [Format.IsNan, Unpacked.Represents.infinity_eq, hmag]
  omega

theorem pattern_or_infinity (sgn : Bool) :
    U128.pattern ⟨0, 0x7fff000000000000#64 ||| word sgn <<< 63 ||| 0#64 ||| word false <<< 47⟩ =
      ⟨sgn, binary128.infinity⟩ := by
  cases sgn <;> rfl

theorem isNan_or_quiet (S F x0 : BitVec 64) :
    binary128.IsNan (U128.pattern ⟨x0, 0x7fff000000000000#64 ||| S ||| F ||| word true <<< 47⟩) := by
  have hquiet : 0x7fff000000000000#64 ||| S ||| F ||| word true <<< 47 = S ||| F ||| 0x7fff800000000000#64 := by
    have hbits : 0x7fff000000000000#64 ||| word true <<< 47 = 0x7fff800000000000#64 := by decide
    rw [← hbits]
    ac_rfl
  have hone : (0x7fff800000000000#64).toNat = 0x7fff800000000000 := rfl
  refine isNan_of_le ?_
  rw [hquiet, BitVec.toNat_or, Nat.or_mod_two_pow, hone]
  exact Nat.right_le_or

theorem isFinite_fields {sgn : Bool} {e f : Nat} (he : e < 32767) (hf : f < 2 ^ 112) :
    binary128.IsFinite ⟨sgn, e * 2 ^ 112 + f⟩ := by
  have hlt : e * 2 ^ 112 + f < 32767 * 2 ^ 112 := by omega
  rw [Format.IsFinite, Unpacked.Represents.infinity_eq]
  exact hlt

end fields

section widens

variable {g : Format} {off : Nat} {a r : Pattern}

/-- The numbers of an exponent of a shorter format, with zeros after the fraction. -/
theorem magnitude_value_widen {E F k d m M : Nat} (hE : 1 ≤ E) (hlo : E = 1 ∨ 2 ^ g.fraction_bits ≤ k)
    (hhi : k ≤ 2 * 2 ^ g.fraction_bits) (hm : m = (E - 1) * 2 ^ g.fraction_bits + k) (hF : 1 ≤ F)
    (hk : 2 ^ 112 ≤ k * 2 ^ d) (hk' : k * 2 ^ d < 2 * 2 ^ 112) (hM : M + 2 ^ 112 = F * 2 ^ 112 + k * 2 ^ d)
    (hexp : (F + d : Int) = E + 16495 - g.bias - g.fraction_bits) :
    binary128.magnitude_value M = g.magnitude_value m := by
  have hbits : binary128.fraction_bits = 112 := rfl
  have hbias : binary128.bias = 16383 := rfl
  have hgrid := Format.magnitude_value_grid (f := binary128) (E := F) (k := k * 2 ^ d) hF
    (.inr (by rw [hbits]; exact hk)) (by rw [hbits]; exact hk'.le)
  have hM' : M = (F - 1) * 2 ^ binary128.fraction_bits + k * 2 ^ d := by
    obtain ⟨e, rfl⟩ : ∃ e, F = e + 1 := ⟨F - 1, by omega⟩
    rw [hbits, Nat.add_sub_cancel]
    omega
  have hsum : (E - g.bias - g.fraction_bits : Int) = (d : Int) + (F - binary128.bias - binary128.fraction_bits) := by
    rw [hbits, hbias]
    push_cast
    omega
  rw [hM', hgrid, hm, Format.magnitude_value_grid hE hlo hhi, hsum, zpow_add₀ (by norm_num), zpow_natCast]
  push_cast
  ring

/-- How the fields are converted. `off` is the difference of the biases. -/
structure Widens (g : Format) (off : Nat) (a r : Pattern) : Prop where
  zero : a.magnitude = 0 → r = ⟨a.neg, 0⟩
  infinite : a.magnitude = g.infinity → r = ⟨a.neg, binary128.infinity⟩
  nan : g.infinity < a.magnitude → binary128.IsNan r
  subnormal : a.magnitude ≠ 0 → a.magnitude < 2 ^ g.fraction_bits → ∃ adj ≤ g.fraction_bits,
    2 ^ g.fraction_bits ≤ a.magnitude * 2 ^ adj ∧ a.magnitude * 2 ^ adj < 2 * 2 ^ g.fraction_bits ∧
    r = ⟨a.neg, (off + 1 - adj) * 2 ^ 112 + a.magnitude * 2 ^ adj % 2 ^ g.fraction_bits * 2 ^ (112 - g.fraction_bits)⟩
  normal : 2 ^ g.fraction_bits ≤ a.magnitude → a.magnitude < g.infinity →
    r = ⟨a.neg, (a.magnitude / 2 ^ g.fraction_bits + off) * 2 ^ 112 +
      a.magnitude % 2 ^ g.fraction_bits * 2 ^ (112 - g.fraction_bits)⟩

/-- The fraction in its new place. -/
theorem fraction_mul {t f : Nat} (ht : t ≤ 112) (hf : f < 2 ^ t) :
    f * 2 ^ (112 - t) < 2 ^ 112 ∧ (2 ^ t + f) * 2 ^ (112 - t) = 2 ^ 112 + f * 2 ^ (112 - t) := by
  have hsplit : 2 ^ 112 = 2 ^ t * 2 ^ (112 - t) := by
    rw [← pow_add]
    congr 1
    omega
  rw [Nat.add_mul, ← hsplit]
  refine ⟨?_, rfl⟩
  rw [hsplit]
  exact Nat.mul_lt_mul_of_pos_right hf (Nat.two_pow_pos _)

theorem Widens.embeds (h : Widens g off a r) (hbits : g.fraction_bits ≤ 112) (hexp : g.exponent_bits ≤ 14)
    (hoff : g.fraction_bits ≤ off) (hbias : off + g.bias = 16383) : g.Embeds binary128 a r := by
  have hpos := g.two_pow_fraction_pos
  rcases g.classes a with ⟨hfinite, -, -⟩ | ⟨hinfinite, -, -⟩ | ⟨hnan, -, -⟩
  · have hlt : a.magnitude < g.infinity := hfinite
    by_cases hzero : a.magnitude = 0
    · rw [h.zero hzero]
      refine .of_finite hfinite binary128.infinity_pos rfl ?_
      rw [hzero, Format.magnitude_value_zero, Format.magnitude_value_zero]
    · by_cases hsmall : a.magnitude < 2 ^ g.fraction_bits
      · obtain ⟨adj, hadj, hlo, hhi, hr⟩ := h.subnormal hzero hsmall
        obtain ⟨f, hf⟩ := Nat.exists_eq_add_of_le hlo
        have hflt : f < 2 ^ g.fraction_bits := by omega
        have hmod : a.magnitude * 2 ^ adj % 2 ^ g.fraction_bits = f := by
          rw [hf, Nat.add_mod_left, Nat.mod_eq_of_lt hflt]
        obtain ⟨hfrac, hlead⟩ := fraction_mul hbits hflt
        have hshift : a.magnitude * 2 ^ (adj + (112 - g.fraction_bits)) = 2 ^ 112 + f * 2 ^ (112 - g.fraction_bits) := by
          rw [pow_add, ← Nat.mul_assoc, hf, hlead]
        rw [hr, hmod]
        refine .of_finite hfinite (isFinite_fields (by omega) hfrac) rfl ?_
        refine magnitude_value_widen (E := 1) (F := off + 1 - adj) (k := a.magnitude)
          (d := adj + (112 - g.fraction_bits)) (le_refl 1) (.inl rfl) (by omega) (by simp) (by omega) ?_ ?_ ?_ ?_
        · rw [hshift]
          omega
        · rw [hshift]
          omega
        · rw [hshift]
          dsimp only
          omega
        · push_cast
          omega
      · rw [Nat.not_lt] at hsmall
        have hflt := Nat.mod_lt a.magnitude hpos
        have hdiv := Nat.div_add_mod' a.magnitude (2 ^ g.fraction_bits)
        have hmax : a.magnitude / 2 ^ g.fraction_bits < 2 ^ 14 - 1 := by
          have hwidth : 2 ^ g.exponent_bits ≤ 2 ^ 14 := Nat.pow_le_pow_right (by decide) hexp
          have hlt' : a.magnitude / 2 ^ g.fraction_bits < 2 ^ g.exponent_bits - 1 := Nat.div_lt_of_lt_mul (by
            rw [Nat.mul_comm]
            exact hlt)
          omega
        obtain ⟨e, he⟩ : ∃ e, a.magnitude / 2 ^ g.fraction_bits = e + 1 :=
          ⟨a.magnitude / 2 ^ g.fraction_bits - 1, by have := (Nat.one_le_div_iff hpos).mpr hsmall; omega⟩
        obtain ⟨f, hf⟩ : ∃ f, a.magnitude % 2 ^ g.fraction_bits = f := ⟨_, rfl⟩
        rw [h.normal hsmall hlt, he, hf]
        rw [he, hf, Nat.succ_mul] at hdiv
        rw [hf] at hflt
        rw [he] at hmax
        obtain ⟨hfrac, hlead⟩ := fraction_mul hbits hflt
        refine .of_finite hfinite (isFinite_fields (by omega) hfrac) rfl ?_
        refine magnitude_value_widen (E := e + 1) (F := e + 1 + off) (k := 2 ^ g.fraction_bits + f)
          (d := 112 - g.fraction_bits) (by omega) (.inr (by omega)) (by omega) ?_ (by omega) ?_ ?_ ?_ ?_
        · rw [Nat.add_sub_cancel]
          omega
        · rw [hlead]
          omega
        · rw [hlead]
          omega
        · rw [hlead]
          dsimp only
          omega
        · push_cast
          omega
  · rw [h.infinite hinfinite]
    exact .of_infinite hinfinite rfl rfl
  · exact .of_nan hnan (h.nan hnan)

end widens

section single

variable (a : BitVec 32)

theorem single_sign : a.setWidth 64 >>> 31 <<< 63 = word a.msb <<< 63 := by
  have hlt := a.isLt
  refine BitVec.eq_of_toNat_eq ?_
  rw [toNat_sign, toNat_shl, toNat_shr, BitVec.toNat_setWidth, BitVec.msb_eq_decide]
  by_cases hneg : 2 ^ 31 ≤ a.toNat
  · rw [decide_eq_true (by exact hneg), if_pos rfl]
    omega
  · rw [decide_eq_false (by exact hneg), if_neg (by decide)]
    omega

theorem extendsftf2_widens : Widens binary32 16256 (word_pattern a) (extendsftf2 a).pattern := by
  have hlt := a.isLt
  have hsign := single_sign a
  have haa : (a.setWidth 64).toNat = a.toNat := by
    rw [BitVec.toNat_setWidth]
    omega
  have hlow : (0 : BitVec 64).toNat = 0 := rfl
  have hmag : (word_pattern a).magnitude = a.toNat % 2 ^ 31 := rfl
  have hneg : (word_pattern a).neg = a.msb := rfl
  have hzero : a <<< 1 = 0 ↔ a.toNat % 2 ^ 31 = 0 := by
    rw [eq_zero_iff, toNat_shl]
    omega
  have hexp : (a <<< 1 >>> 24).toNat = a.toNat / 2 ^ 23 % 2 ^ 8 := by
    rw [toNat_shr, toNat_shl]
    omega
  have hfull : a <<< 1 >>> 24 = 255#32 ↔ a.toNat / 2 ^ 23 % 2 ^ 8 = 255 := by
    rw [← BitVec.toNat_inj, hexp]
    rfl
  have hsub : a <<< 1 >>> 24 = 0 ↔ a.toNat / 2 ^ 23 % 2 ^ 8 = 0 := by
    rw [eq_zero_iff, hexp]
  have hfraction : (a.setWidth 64 <<< 41 >>> 16).toNat = a.toNat % 2 ^ 23 * 2 ^ 25 := by
    rw [toNat_shr, toNat_shl, haa]
    omega
  have hinf : binary32.infinity = 255 * 2 ^ 23 := rfl
  have hbits : binary32.fraction_bits = 23 := rfl
  unfold extendsftf2
  rw [← hmag] at hzero
  constructor
  · intro hz
    rw [if_pos (hzero.mpr hz), hneg]
    rw [hmag] at hz
    have htop : (a.setWidth 64 <<< 32).toNat = a.toNat * 2 ^ 32 := by
      rw [toNat_shl, haa]
      omega
    rw [U128.pattern_mk, Pattern.mk.injEq, U128.toNat_mk, htop, BitVec.msb_eq_decide, htop, BitVec.msb_eq_decide, hlow]
    refine ⟨by rw [decide_eq_decide]; omega, by omega⟩
  · intro h
    rw [hmag, hinf] at h
    have hempty : a.setWidth 64 <<< 41 >>> 16 = 0#64 := by
      refine (eq_zero_iff _).mpr ?_
      rw [hfraction]
      omega
    have hnone : (a <<< 9 != 0) = false := by
      rw [bne_eq_false_iff_eq, eq_zero_iff, toNat_shl]
      omega
    rw [if_neg (mt hzero.mp (by rw [hmag]; omega)), if_pos (hfull.mpr (by omega)), hempty, hnone, hsign,
      pattern_or_infinity, hneg]
  · intro h
    rw [hmag, hinf] at h
    have hsome : (a <<< 9 != 0) = true := by
      rw [bne_iff_ne, Ne, eq_zero_iff, toNat_shl]
      omega
    rw [if_neg (mt hzero.mp (by rw [hmag]; omega)), if_pos (hfull.mpr (by omega)), hsome]
    exact isNan_or_quiet _ _ _
  · intro hne hlt'
    rw [hbits] at hlt' ⊢
    have hm : (a <<< 1 >>> 1).toNat = (word_pattern a).magnitude := by
      rw [toNat_shr, toNat_shl, hmag]
      omega
    obtain ⟨hle, hlo, hhi⟩ := f3_adjust_spec (m := a <<< 1 >>> 1) (n := 23) (by rwa [hm]) (by omega)
    rw [hm] at hlo hhi
    rw [if_neg (mt hzero.mp hne), if_neg (mt hfull.mp (by omega)), if_pos (hsub.mpr (by omega)), hneg]
    obtain ⟨adj, hadj⟩ : ∃ adj, f3_adjust (a <<< 1 >>> 1) 23 = adj := ⟨_, rfl⟩
    rw [hadj] at hle hlo hhi ⊢
    refine ⟨adj, hle, hlo, by omega, ?_⟩
    have hE : (16256#64 - BitVec.ofNat 64 adj + 1#64).toNat = 16257 - adj := by
      have hoff : (16256#64).toNat = 16256 := rfl
      have hone : (1#64).toNat = 1 := rfl
      rw [BitVec.toNat_add, BitVec.toNat_sub, BitVec.toNat_ofNat, hoff, hone]
      omega
    have hF : (a.setWidth 64 <<< adj <<< 41 >>> 16).toNat = (word_pattern a).magnitude * 2 ^ adj % 2 ^ 23 * 2 ^ 25 := by
      have hdiv : a.toNat * 2 ^ adj = a.toNat % 2 ^ 31 * 2 ^ adj + 2 ^ 31 * (a.toNat / 2 ^ 31 * 2 ^ adj) := by
        conv_lhs => rw [← Nat.mod_add_div a.toNat (2 ^ 31)]
        ring
      rw [toNat_shr, toNat_shl, toNat_shl, haa, hmag]
      omega
    rw [pattern_or_fields hsign (by omega) (by omega), hE, hF, hlow, Pattern.mk.injEq]
    exact ⟨rfl, by omega⟩
  · intro hge hlt'
    rw [hbits] at hge ⊢
    rw [hmag, hinf] at hlt'
    rw [hmag] at hge hzero ⊢
    have hE : ((a.setWidth 64 >>> 23 &&& 255#64) + 16256#64).toNat = a.toNat / 2 ^ 23 % 2 ^ 8 + 16256 := by
      have hmask : (a.setWidth 64 >>> 23 &&& 255#64).toNat = a.toNat / 2 ^ 23 % 2 ^ 8 := by
        rw [BitVec.toNat_and, toNat_shr, haa]
        exact Nat.and_two_pow_sub_one_eq_mod _ 8
      have hoff : (16256#64).toNat = 16256 := rfl
      rw [BitVec.toNat_add, hmask, hoff]
      omega
    rw [if_neg (mt hzero.mp (by omega)), if_neg (mt hfull.mp (by omega)), if_neg (mt hsub.mp (by omega)),
      pattern_or_fields hsign (by omega) (by omega), hE, hfraction, hlow, hneg, Pattern.mk.injEq]
    exact ⟨rfl, by omega⟩

/-- A single number as a quad number. -/
theorem extendsftf2_embeds : binary32.Embeds binary128 (word_pattern a) (extendsftf2 a).pattern :=
  (extendsftf2_widens a).embeds (by decide) (by decide) (by decide) (by decide)

end single

section double

variable (a : BitVec 64)

theorem double_sign : a >>> 63 <<< 63 = word a.msb <<< 63 := by
  have hlt := a.isLt
  refine BitVec.eq_of_toNat_eq ?_
  rw [toNat_sign, toNat_shl, toNat_shr, BitVec.msb_eq_decide]
  by_cases hneg : 2 ^ 63 ≤ a.toNat
  · rw [decide_eq_true (by exact hneg), if_pos rfl]
    omega
  · rw [decide_eq_false (by exact hneg), if_neg (by decide)]
    omega

theorem extenddftf2_widens : Widens binary64 15360 (word_pattern a) (extenddftf2 a).pattern := by
  have hlt := a.isLt
  have hsign := double_sign a
  have hmag : (word_pattern a).magnitude = a.toNat % 2 ^ 63 := rfl
  have hneg : (word_pattern a).neg = a.msb := rfl
  have hzero : a <<< 1 = 0 ↔ a.toNat % 2 ^ 63 = 0 := by
    rw [eq_zero_iff, toNat_shl]
    omega
  have hexp : (a <<< 1 >>> 53).toNat = a.toNat / 2 ^ 52 % 2 ^ 11 := by
    rw [toNat_shr, toNat_shl]
    omega
  have hfull : a <<< 1 >>> 53 = 2047#64 ↔ a.toNat / 2 ^ 52 % 2 ^ 11 = 2047 := by
    rw [← BitVec.toNat_inj, hexp]
    rfl
  have hsub : a <<< 1 >>> 53 = 0 ↔ a.toNat / 2 ^ 52 % 2 ^ 11 = 0 := by
    rw [eq_zero_iff, hexp]
  have hfraction : (a <<< 12 >>> 16).toNat = a.toNat % 2 ^ 52 / 2 ^ 4 := by
    rw [toNat_shr, toNat_shl]
    omega
  have hrest : (a <<< 60).toNat = a.toNat % 2 ^ 4 * 2 ^ 60 := by
    rw [toNat_shl]
    omega
  have hinf : binary64.infinity = 2047 * 2 ^ 52 := rfl
  have hbits : binary64.fraction_bits = 52 := rfl
  unfold extenddftf2
  rw [← hmag] at hzero
  constructor
  · intro hz
    rw [if_pos (hzero.mpr hz), hneg]
    rw [hmag] at hz
    rw [U128.pattern_mk, Pattern.mk.injEq, U128.toNat_mk, hrest]
    exact ⟨rfl, by omega⟩
  · intro h
    rw [hmag, hinf] at h
    have hempty : a <<< 12 >>> 16 = 0#64 := by
      refine (eq_zero_iff _).mpr ?_
      rw [hfraction]
      omega
    have hempty' : a <<< 60 = 0 := by
      refine (eq_zero_iff _).mpr ?_
      rw [hrest]
      omega
    have hnone : (a <<< 12 != 0) = false := by
      rw [bne_eq_false_iff_eq, eq_zero_iff, toNat_shl]
      omega
    rw [if_neg (mt hzero.mp (by rw [hmag]; omega)), if_pos (hfull.mpr (by omega)), hempty, hempty', hnone, hsign,
      pattern_or_infinity, hneg]
  · intro h
    rw [hmag, hinf] at h
    have hsome : (a <<< 12 != 0) = true := by
      rw [bne_iff_ne, Ne, eq_zero_iff, toNat_shl]
      omega
    rw [if_neg (mt hzero.mp (by rw [hmag]; omega)), if_pos (hfull.mpr (by omega)), hsome]
    exact isNan_or_quiet _ _ _
  · intro hne hlt'
    rw [hbits] at hlt' ⊢
    have hm : (a <<< 1 >>> 1).toNat = (word_pattern a).magnitude := by
      rw [toNat_shr, toNat_shl, hmag]
      omega
    obtain ⟨hle, hlo, hhi⟩ := f3_adjust_spec (m := a <<< 1 >>> 1) (n := 52) (by rwa [hm]) (by omega)
    rw [hm] at hlo hhi
    rw [if_neg (mt hzero.mp hne), if_neg (mt hfull.mp (by omega)), if_pos (hsub.mpr (by omega)), hneg]
    obtain ⟨adj, hadj⟩ : ∃ adj, f3_adjust (a <<< 1 >>> 1) 52 = adj := ⟨_, rfl⟩
    rw [hadj] at hle hlo hhi ⊢
    refine ⟨adj, hle, hlo, by omega, ?_⟩
    have hE : (15360#64 - BitVec.ofNat 64 adj + 1#64).toNat = 15361 - adj := by
      have hoff : (15360#64).toNat = 15360 := rfl
      have hone : (1#64).toNat = 1 := rfl
      rw [BitVec.toNat_add, BitVec.toNat_sub, BitVec.toNat_ofNat, hoff, hone]
      omega
    have hdiv : a.toNat * 2 ^ adj = a.toNat % 2 ^ 63 * 2 ^ adj + 2 ^ 63 * (a.toNat / 2 ^ 63 * 2 ^ adj) := by
      conv_lhs => rw [← Nat.mod_add_div a.toNat (2 ^ 63)]
      ring
    have hF : (a <<< adj <<< 12 >>> 16).toNat = (word_pattern a).magnitude * 2 ^ adj % 2 ^ 52 / 2 ^ 4 := by
      rw [toNat_shr, toNat_shl, toNat_shl, hmag]
      omega
    have hlow : (a <<< 60 <<< adj).toNat = (word_pattern a).magnitude * 2 ^ adj % 2 ^ 4 * 2 ^ 60 := by
      have hswap : a.toNat * 2 ^ 60 * 2 ^ adj = a.toNat * 2 ^ adj * 2 ^ 60 := by ring
      rw [toNat_shl, toNat_shl, Nat.mod_mul_mod, hswap, hmag]
      omega
    rw [pattern_or_fields hsign (by omega) (by omega), hE, hF, hlow, Pattern.mk.injEq]
    exact ⟨rfl, by omega⟩
  · intro hge hlt'
    rw [hbits] at hge ⊢
    rw [hmag, hinf] at hlt'
    rw [hmag] at hge hzero ⊢
    have hE : ((a >>> 52 &&& 2047#64) + 15360#64).toNat = a.toNat / 2 ^ 52 % 2 ^ 11 + 15360 := by
      have hmask : (a >>> 52 &&& 2047#64).toNat = a.toNat / 2 ^ 52 % 2 ^ 11 := by
        rw [BitVec.toNat_and, toNat_shr]
        exact Nat.and_two_pow_sub_one_eq_mod _ 11
      have hoff : (15360#64).toNat = 15360 := rfl
      rw [BitVec.toNat_add, hmask, hoff]
      omega
    rw [if_neg (mt hzero.mp (by omega)), if_neg (mt hfull.mp (by omega)), if_neg (mt hsub.mp (by omega)),
      pattern_or_fields hsign (by omega) (by omega), hE, hfraction, hrest, hneg, Pattern.mk.injEq]
    exact ⟨rfl, by omega⟩

/-- A double number as a quad number. -/
theorem extenddftf2_embeds : binary64.Embeds binary128 (word_pattern a) (extenddftf2 a).pattern :=
  (extenddftf2_widens a).embeds (by decide) (by decide) (by decide) (by decide)

end double

end tcc.lib.quad
