import Tcc.Gen.Riscv64.Canonical
import Tcc.Gen.Riscv64.FrameCode

/-! What is in a register after a constant is loaded into it. -/

open machine.rv64

namespace tcc.riscv64

open BType

theorem ofInt_eq_of_sub {a b k : Int} (h : a - b = 2 ^ 64 * k) : BitVec.ofInt 64 a = BitVec.ofInt 64 b := by
  have heq : a = b + 2 ^ 64 * k := by omega
  have hzero : BitVec.ofInt 64 (2 ^ 64) = 0#64 := by decide
  rw [heq, BitVec.ofInt_add, BitVec.ofInt_mul, hzero, BitVec.zero_mul, BitVec.add_zero]

theorem ofInt_shiftLeft_12 (a : Int) : BitVec.ofInt 64 a <<< 12 = BitVec.ofInt 64 (a * 2 ^ 12) := by
  rw [BitVec.shiftLeft_eq_mul_twoPow, BitVec.ofInt_mul]
  congr 1

theorem ofInt_shiftLeft_8 (a : Int) : BitVec.ofInt 64 a <<< 8 = BitVec.ofInt 64 (a * 2 ^ 8) := by
  rw [BitVec.shiftLeft_eq_mul_twoPow, BitVec.ofInt_mul]
  congr 1

theorem ofInt_sub (a b : Int) : BitVec.ofInt 64 (a - b) = BitVec.ofInt 64 a - BitVec.ofInt 64 b := by
  rw [Int.sub_eq_add_neg, BitVec.ofInt_add, BitVec.ofInt_neg, BitVec.sub_eq_add_neg]

theorem signExtend_eq_ofInt {w : Nat} (x : BitVec w) : x.signExtend 64 = BitVec.ofInt 64 x.toInt := rfl

theorem splitSum_eq_ofInt (u : BitVec 32) : ∃ e : Int, splitSum u = BitVec.ofInt 64 (u.toInt + 2 ^ 32 * e) := by
  by_cases hu : u.toInt + 2048 < 2 ^ 31
  · exact ⟨0, by rw [(splitSum_eq_iff u).mpr hu, signExtend_eq_ofInt, Int.mul_zero, Int.add_zero]⟩
  · exact ⟨-1, by rw [splitSum_of_carry (by omega)]; congr 1⟩

/-- The low words for which the rounding of `load_large_constant` overflows. -/
def rounds_over (fc : BitVec 32) : Prop := 0x7ff80000 ≤ fc.toInt

instance (fc : BitVec 32) : Decidable (rounds_over fc) := inferInstanceAs (Decidable (_ ≤ _))

/-- The upper word that `load_large_constant` is given for a constant. -/
def high_word (c : BitVec 64) : BitVec 32 := (c.sshiftRight 32).setWidth 32

/-- The constant that the code of `load_large_constant` and the addition behind it make. -/
def large_value (c : BitVec 64) : BitVec 64 :=
  if rounds_over (c.setWidth 32) then c - 0x100000000#64 else c

/-- The pieces of the low word add up to it, unless the rounding overflows. -/
theorem pieces_eq (fc : BitVec 32) :
    ((fc + 0x80000#32).sshiftRight 20).toInt * 2 ^ 20 +
        (((fc.setWidth 20).signExtend 32).sshiftRight 8).toInt * 2 ^ 8 + (fc &&& 0xff#32).toNat =
      fc.toInt - if rounds_over fc then 2 ^ 32 else 0 := by
  have hsum : (fc + 0x80000#32).toInt = (fc.toInt + 0x80000).bmod (2 ^ 32) := by
    rw [BitVec.toInt_add]
    rfl
  have hlow : ((fc.setWidth 20).signExtend 32).toInt = (fc.toInt).bmod (2 ^ 20) := by
    rw [BitVec.toInt_signExtend_of_le (by decide), machine.toInt_setWidth_eq_bmod (by decide)]
  have hbyte : (fc &&& 0xff#32).toNat = fc.toNat % 256 := by
    rw [BitVec.toNat_and]
    exact Nat.and_two_pow_sub_one_eq_mod fc.toNat 8
  have hcond := BitVec.toInt_eq_toNat_cond fc
  have hlt := fc.isLt
  rw [BitVec.toInt_sshiftRight, BitVec.toInt_sshiftRight, hsum, hlow, hbyte, Int.shiftRight_eq_div_pow,
    Int.shiftRight_eq_div_pow]
  unfold rounds_over
  simp only [Int.bmod_def]
  split_ifs at hcond ⊢ <;> omega

theorem sets_slli {rr : BitVec 5} (hrr : rr ≠ 0#5) {n : BitVec 32} {k : Nat}
    (hn : (n.setWidth 12).toNat = k) (hk : k < 64) (s : Hart) :
    ∃ s', exec (EIu 0x13#7 1 rr rr n) s = some s' ∧ Sets s rr (s.get rr <<< k) s' :=
  ⟨_, exec_EIu _ _ _ _ (aluI_slli hn hk), Sets.set_next s hrr _⟩

theorem sets_cons {rr : BitVec 5} {w : Word} {ws : List Word} {s s₁ : Hart} {v v₁ : BitVec 64}
    (hexec : exec w s = some s₁) (hset : Sets s rr v₁ s₁)
    (hrest : ∃ s', run ws s₁ = some s' ∧ Sets s₁ rr v s') :
    ∃ s', run (w :: ws) s = some s' ∧ Sets s rr v s' := by
  obtain ⟨s', hrun, hsets⟩ := hrest
  exact ⟨s', by rw [run_cons, hexec, Option.bind_some, hrun], hset.trans hsets⟩

theorem imm12_low12 (u : BitVec 32) : imm12 (low12 u) := by
  rw [low12, ← shl_sshiftRight]
  exact imm12_low u

theorem low12_signExtend (u : BitVec 32) : (low12 u).signExtend 64 = (u.setWidth 12).signExtend 64 := by
  rw [low12, ← shl_sshiftRight, low_signExtend]

/-- `load_large_constant` always gets through its assertions; the code adds the pieces up. -/
theorem load_large_constant_run {rr : BitVec 5} (hrr : rr ≠ 0#5) (fc pi : BitVec 32) :
    ∃ ws, load_large_constant rr fc pi = some ws ∧ ∀ s, ∃ s', run ws s = some s' ∧
      Sets s rr (((splitSum (if fc.slt 0#32 then pi + 1#32 else pi) <<< 12 +
        ((fc + 0x80000#32).sshiftRight 20).signExtend 64) <<< 12 +
        (((fc.setWidth 20).signExtend 32).sshiftRight 8).signExtend 64) <<< 8) s' := by
  generalize hpi : (if fc.slt 0#32 then pi + 1#32 else pi) = p
  have hup : imm12 ((fc + 0x80000#32).sshiftRight 20) := by
    rw [imm12_iff, BitVec.toInt_sshiftRight, Int.shiftRight_eq_div_pow]
    have hlo := BitVec.le_toInt (fc + 0x80000#32)
    have hhi := BitVec.toInt_lt (x := fc + 0x80000#32)
    omega
  have hmid : imm12 (((fc.setWidth 20).signExtend 32).sshiftRight 8) := by
    rw [imm12_iff, BitVec.toInt_sshiftRight, Int.shiftRight_eq_div_pow,
      BitVec.toInt_signExtend_of_le (by decide)]
    have hlo := BitVec.le_toInt (fc.setWidth 20)
    have hhi := BitVec.toInt_lt (x := fc.setWidth 20)
    omega
  obtain ⟨w1, hw1⟩ : ∃ w, EI 0x13#7 0 rr rr (low12 p) = some w := ⟨_, if_pos (imm12_low12 p)⟩
  obtain ⟨w3, hw3⟩ : ∃ w, EI 0x13#7 0 rr rr ((fc + 0x80000#32).sshiftRight 20) = some w :=
    ⟨_, if_pos hup⟩
  obtain ⟨w5, hw5⟩ : ∃ w, EI 0x13#7 0 rr rr (((fc.setWidth 20).signExtend 32).sshiftRight 8) = some w :=
    ⟨_, if_pos hmid⟩
  have hw2 : EI 0x13#7 1 rr rr 12#32 = some (EIu 0x13#7 1 rr rr 12#32) := if_pos (by decide)
  have hw6 : EI 0x13#7 1 rr rr 8#32 = some (EIu 0x13#7 1 rr rr 8#32) := if_pos (by decide)
  refine ⟨[lui rr (p + 0x800#32), w1, EIu 0x13#7 1 rr rr 12#32, w3, EIu 0x13#7 1 rr rr 12#32, w5,
    EIu 0x13#7 1 rr rr 8#32], by simp only [load_large_constant, hpi, hw1, hw2, hw3, hw5, hw6]; rfl,
    fun s => ?_⟩
  refine sets_cons (exec_lui rr _ s) (Sets.set_next s hrr _) ?_
  obtain ⟨s₂, hexec₂, hset₂⟩ := step_addi hw1 hrr
    (s.set rr (((p + 0x800#32) &&& 0xfffff000#32).signExtend 64)).next
  rw [(Sets.set_next s hrr _).value, low12_signExtend, ← splitSum] at hset₂
  refine sets_cons hexec₂ hset₂ ?_
  obtain ⟨s₃, hexec₃, hset₃⟩ := sets_slli hrr (n := 12#32) (k := 12) (by decide) (by decide) s₂
  rw [hset₂.value] at hset₃
  refine sets_cons hexec₃ hset₃ ?_
  obtain ⟨s₄, hexec₄, hset₄⟩ := step_addi hw3 hrr s₃
  rw [hset₃.value] at hset₄
  refine sets_cons hexec₄ hset₄ ?_
  obtain ⟨s₅, hexec₅, hset₅⟩ := sets_slli hrr (n := 12#32) (k := 12) (by decide) (by decide) s₄
  rw [hset₄.value] at hset₅
  refine sets_cons hexec₅ hset₅ ?_
  obtain ⟨s₆, hexec₆, hset₆⟩ := step_addi hw5 hrr s₅
  rw [hset₅.value] at hset₆
  refine sets_cons hexec₆ hset₆ ?_
  obtain ⟨s₇, hexec₇, hset₇⟩ := sets_slli hrr (n := 8#32) (k := 8) (by decide) (by decide) s₆
  rw [hset₆.value] at hset₇
  exact ⟨s₇, by rw [run_cons, hexec₇, Option.bind_some, run_nil], hset₇⟩

theorem high_word_toInt (c : BitVec 64) : (high_word c).toInt = c.toInt / 2 ^ 32 := by
  have hlo := BitVec.le_toInt c
  have hhi := BitVec.toInt_lt (x := c)
  rw [high_word, machine.toInt_setWidth_eq_bmod (by decide), BitVec.toInt_sshiftRight,
    Int.shiftRight_eq_div_pow]
  apply Int.bmod_eq_of_le_mul_two <;> simp at * <;> omega

theorem low_word_toNat (c : BitVec 64) : ((c.setWidth 32).toNat : Int) = c.toInt % 2 ^ 32 := by
  have hcond := BitVec.toInt_eq_toNat_cond c
  have hlt := c.isLt
  rw [BitVec.toNat_setWidth]
  split at hcond <;> omega

theorem eq_ofInt_toInt (c : BitVec 64) : c = BitVec.ofInt 64 c.toInt := (BitVec.ofInt_toInt).symm

/-- The two words of a constant, the upper one raised by one when the lower is negative. -/
theorem words_toInt (c : BitVec 64) :
    ∃ k : Int, (if (c.setWidth 32).slt 0#32 then high_word c + 1#32 else high_word c).toInt * 2 ^ 32 +
      (c.setWidth 32).toInt = c.toInt + 2 ^ 64 * k := by
  have hhigh := high_word_toInt c
  have hlow := low_word_toNat c
  have hcond := BitVec.toInt_eq_toNat_cond (c.setWidth 32)
  have hlo := BitVec.le_toInt c
  have hhi := BitVec.toInt_lt (x := c)
  have hslt : (c.setWidth 32).slt 0#32 = true ↔ (c.setWidth 32).toInt < 0 := BitVec.slt_iff_toInt_lt
  have hsum : (high_word c + 1#32).toInt = (c.toInt / 2 ^ 32 + 1).bmod (2 ^ 32) := by
    rw [BitVec.toInt_add, hhigh]
    rfl
  by_cases hneg : (c.setWidth 32).slt 0#32 = true
  · rw [if_pos hneg, hsum]
    refine ⟨((c.toInt / 2 ^ 32 + 1).bmod (2 ^ 32) - (c.toInt / 2 ^ 32 + 1)) / 2 ^ 32, ?_⟩
    rw [hslt] at hneg
    simp only [Int.bmod_def]
    split_ifs at hcond ⊢ <;> omega
  · rw [if_neg hneg, hhigh]
    refine ⟨0, ?_⟩
    rw [hslt] at hneg
    split at hcond <;> omega

/-- The sum that `load_large_constant` builds leaves out the low byte. -/
theorem large_sum_eq (c : BitVec 64) :
    ((splitSum (if (c.setWidth 32).slt 0#32 then high_word c + 1#32 else high_word c) <<< 12 +
        ((c.setWidth 32 + 0x80000#32).sshiftRight 20).signExtend 64) <<< 12 +
        ((((c.setWidth 32).setWidth 20).signExtend 32).sshiftRight 8).signExtend 64) <<< 8 =
      large_value c - (c.setWidth 32 &&& 0xff#32).setWidth 64 := by
  have hpieces := pieces_eq (c.setWidth 32)
  obtain ⟨k, hwords⟩ := words_toInt c
  generalize (if (c.setWidth 32).slt 0#32 then high_word c + 1#32 else high_word c) = p at *
  obtain ⟨e, he⟩ := splitSum_eq_ofInt p
  have hbyte : (c.setWidth 32 &&& 0xff#32).setWidth 64 =
      BitVec.ofInt 64 (c.setWidth 32 &&& 0xff#32).toNat := by
    rw [BitVec.ofInt_natCast]
    exact (BitVec.ofNat_toNat _ _).symm
  have hlarge : large_value c =
      BitVec.ofInt 64 (c.toInt - if rounds_over (c.setWidth 32) then 2 ^ 32 else 0) := by
    unfold large_value
    split
    · conv_lhs => rw [eq_ofInt_toInt c]
      rw [show (0x100000000#64 : BitVec 64) = BitVec.ofInt 64 (2 ^ 32) by decide, ← ofInt_sub]
    · rw [Int.sub_zero, ← eq_ofInt_toInt]
  rw [he, hbyte, hlarge, ofInt_shiftLeft_12, signExtend_eq_ofInt, ← BitVec.ofInt_add,
    ofInt_shiftLeft_12, signExtend_eq_ofInt, ← BitVec.ofInt_add, ofInt_shiftLeft_8, ← ofInt_sub]
  apply ofInt_eq_of_sub (k := e + k)
  omega

/-- The value that `load` leaves in the register for a constant. -/
def loaded (t : Scalar) (c : BitVec 64) : BitVec 64 :=
  if (c.setWidth 32).signExtend 64 = c then c
  else if c.sshiftRight 32 ≠ 0#64 then large_value c
  else if t.bt = VT_LLONG then c
  else (c.setWidth 32).signExtend 64

theorem low_byte_signExtend (fc : BitVec 32) :
    (low12 (fc &&& 0xff#32)).signExtend 64 = (fc &&& 0xff#32).setWidth 64 := by
  rw [low12_signExtend]
  ext i hi
  interval_cases i <;> simp [BitVec.getElem_signExtend, BitVec.msb_eq_getLsbD_last]

theorem load_const_large {rr : BitVec 5} (hrr : rr ≠ 0#5) (t : Scalar) {c : BitVec 64}
    (hc : (c.setWidth 32).signExtend 64 ≠ c) (hsi : c.sshiftRight 32 ≠ 0#64) :
    ∃ ws, load_const rr t false 0 c = some ws ∧
      ∀ s, ∃ s', run ws s = some s' ∧ Sets s rr (large_value c) s' := by
  obtain ⟨ws, hws, hrun⟩ := load_large_constant_run hrr (c.setWidth 32) (high_word c)
  simp only [load_const, if_pos (And.intro hc hsi), Bool.false_eq_true, or_false, if_false]
  rw [show (c.sshiftRight 32).setWidth 32 = high_word c from rfl, hws]
  simp only [large_sum_eq] at hrun
  by_cases hbyte : c.setWidth 32 &&& 0xff#32 = 0#32
  · refine ⟨ws, by simp [hbyte], fun s => ?_⟩
    obtain ⟨s', hs', hset⟩ := hrun s
    rw [hbyte, BitVec.setWidth_zero, BitVec.sub_zero] at hset
    exact ⟨s', hs', hset⟩
  · obtain ⟨w, hw⟩ : ∃ w, EI 0x13#7 0 rr rr (low12 (c.setWidth 32 &&& 0xff#32)) = some w :=
      ⟨_, if_pos (imm12_low12 _)⟩
    simp only [Option.bind_eq_bind, Option.bind_some, ne_eq, hbyte, not_false_eq_true, if_true, hw]
    refine ⟨ws ++ [w], rfl, fun s => ?_⟩
    obtain ⟨s₁, hs₁, hset₁⟩ := hrun s
    obtain ⟨s₂, hexec, hset₂⟩ := step_addi hw hrr s₁
    rw [hset₁.value, low_byte_signExtend, BitVec.sub_add_cancel] at hset₂
    refine ⟨s₂, ?_, hset₁.trans hset₂⟩
    rw [run_append, hs₁, Option.bind_some, run_cons, hexec, Option.bind_some, run_nil]

theorem large_iff {fc : BitVec 32} : large fc = true ↔ ¬ imm12 fc := by
  rw [large, bne_iff_ne, imm12]

theorem low12_setWidth (u : BitVec 32) : (low12 u).setWidth 12 = u.setWidth 12 := by
  rw [low12]
  ext i hi
  interval_cases i <;> simp [BitVec.getElem_signExtend]

/-- The rounded upper part and the signed lower part of a word add up to it. -/
theorem high_add_low12 (u : BitVec 32) : (0x800#32 + u &&& 0xfffff000#32) + low12 u = u := by
  have hsum := congrArg (BitVec.setWidth 32) (hi_add_lo (u.signExtend 64))
  have hlow : (u.signExtend 64).setWidth 12 = u.setWidth 12 := by
    ext i hi
    rw [BitVec.getElem_setWidth, BitVec.getLsbD_signExtend, BitVec.getElem_setWidth]
    simp [show i < 32 by omega, show i < 64 by omega]
  have hext : ((u.setWidth 12).signExtend 64).setWidth 32 = low12 u := by
    rw [low12]
    ext i hi
    interval_cases i <;> simp [BitVec.getElem_signExtend]
  rw [BitVec.setWidth_add _ _ (by decide), BitVec.setWidth_and, BitVec.setWidth_add _ _ (by decide),
    machine.setWidth_signExtend, hlow, hext, BitVec.add_comm u] at hsum
  exact hsum

/-- `lui` and `addiw` make the sign extension of any word. -/
theorem lui_addiw_run {rr : BitVec 5} (hrr : rr ≠ 0#5) (fc : BitVec 32) :
    ∃ w, EI 0x1b#7 0 rr (if large fc then rr else 0) (low12 fc) = some w ∧ ∀ s, ∃ s',
      run ((if large fc then [lui rr (0x800#32 + fc)] else []) ++ [w]) s = some s' ∧
        Sets s rr (fc.signExtend 64) s' := by
  refine ⟨_, if_pos (imm12_low12 fc), fun s => ?_⟩
  have hexec (a : BitVec 5) (s : Hart) : exec (EIu 0x1b#7 0 rr a (low12 fc)) s =
      some (s.set rr (((s.get a).setWidth 32 + low12 fc).signExtend 64)).next := by
    refine exec_EIuW _ _ _ _ ?_
    rw [low12_setWidth]
    rfl
  by_cases hlarge : large fc = true
  · rw [if_pos hlarge, if_pos hlarge, List.singleton_append]
    have hset := Sets.set_next s hrr ((0x800#32 + fc &&& 0xfffff000#32).signExtend 64)
    refine sets_cons (exec_lui rr _ s) hset ⟨_, by rw [run_cons, hexec, Option.bind_some, run_nil], ?_⟩
    rw [hset.value, machine.setWidth_signExtend, high_add_low12]
    exact Sets.set_next _ hrr _
  · rw [if_neg hlarge, if_neg hlarge]
    rw [large_iff, not_not] at hlarge
    refine ⟨_, by rw [List.nil_append, run_cons, hexec, Option.bind_some, run_nil], ?_⟩
    rw [show s.get 0 = 0#64 from rfl, BitVec.setWidth_zero, BitVec.zero_add, low12,
      imm12_signExtend32 hlarge]
    exact Sets.set_next _ hrr _

/-- A word without its sign: the two shifts of `load`. -/
theorem slli_srli_run {rr : BitVec 5} (hrr : rr ≠ 0#5) (s : Hart) : ∃ s',
    run [EIu 0x13#7 1 rr rr 32#32, EIu 0x13#7 5 rr rr 32#32] s = some s' ∧
      Sets s rr (((s.get rr).setWidth 32).setWidth 64) s' := by
  obtain ⟨s₁, hexec₁, hset₁⟩ := sets_slli hrr (n := 32#32) (k := 32) (by decide) (by decide) s
  refine sets_cons hexec₁ hset₁
    ⟨(s₁.set rr (s₁.get rr >>> 32)).next, ?_, ?_⟩
  · rw [run_cons, exec_EIu _ _ _ _ (aluI_srli (n := (32#32).setWidth 12) (k := 32) (by decide) (by decide)),
      Option.bind_some, run_nil]
  · rw [hset₁.value]
    have hval : (s.get rr <<< 32) >>> 32 = ((s.get rr).setWidth 32).setWidth 64 := by
      ext i hi
      simp only [BitVec.getElem_ushiftRight, BitVec.getLsbD_shiftLeft, BitVec.getElem_setWidth,
        BitVec.getLsbD_setWidth]
      by_cases h32 : i < 32
      · simp [h32, show 32 + i < 64 by omega]
      · simp [h32, show ¬ 32 + i < 64 by omega]
    rw [hval]
    exact Sets.set_next s₁ hrr _

theorem zext_of_high_eq_zero {c : BitVec 64} (h : c.sshiftRight 32 = 0#64) :
    (c.setWidth 32).setWidth 64 = c := by
  have hint := congrArg BitVec.toInt h
  rw [BitVec.toInt_sshiftRight, Int.shiftRight_eq_div_pow, BitVec.toInt_zero] at hint
  have hcond := BitVec.toInt_eq_toNat_cond c
  have hlt := c.isLt
  apply BitVec.eq_of_toNat_eq
  rw [machine.toNat_zeroExtend, BitVec.toNat_setWidth]
  split at hcond <;> omega

/-- Every constant is loaded, as `loaded` says. -/
theorem load_const_loaded {rr : BitVec 5} (hrr : rr ≠ 0#5) (t : Scalar) (c : BitVec 64) :
    ∃ ws, load_const rr t false 0 c = some ws ∧
      ∀ s, ∃ s', run ws s = some s' ∧ Sets s rr (loaded t c) s' := by
  by_cases hlarge : (c.setWidth 32).signExtend 64 ≠ c ∧ c.sshiftRight 32 ≠ 0#64
  · rw [loaded, if_neg hlarge.1, if_pos hlarge.2]
    exact load_const_large hrr t hlarge.1 hlarge.2
  · obtain ⟨w, hw, hrun⟩ := lui_addiw_run hrr (c.setWidth 32)
    have hcode : load_const rr t false 0 c = some ((if large (c.setWidth 32) then
        [lui rr (0x800#32 + c.setWidth 32)] else []) ++ w ::
          if (c.setWidth 32).signExtend 64 ≠ c ∧ t.bt = VT_LLONG then
            [EIu 0x13#7 1 rr rr 32#32, EIu 0x13#7 5 rr rr 32#32] else []) := by
      rw [load_const, if_neg hlarge]
      change (EI 0x1b#7 0 rr _ _).bind _ = _
      rw [hw, Option.bind_some]
      split
      · rfl
      · rfl
    refine ⟨_, hcode, fun s => ?_⟩
    obtain ⟨s₁, hrun₁, hset₁⟩ := hrun s
    rw [List.append_cons, run_append, hrun₁, Option.bind_some]
    by_cases hsame : (c.setWidth 32).signExtend 64 = c
    · rw [loaded, if_pos hsame, if_neg (fun hand => hand.1 hsame), run_nil]
      exact ⟨s₁, rfl, hsame ▸ hset₁⟩
    · have hsi : c.sshiftRight 32 = 0#64 := by
        by_contra hsi
        exact hlarge ⟨hsame, hsi⟩
      rw [loaded, if_neg hsame, if_neg (not_not.mpr hsi)]
      by_cases hbt : t.bt = VT_LLONG
      · rw [if_pos hbt, if_pos ⟨hsame, hbt⟩]
        obtain ⟨s₂, hrun₂, hset₂⟩ := slli_srli_run hrr s₁
        rw [hset₁.value, machine.setWidth_signExtend, zext_of_high_eq_zero hsi] at hset₂
        exact ⟨s₂, hrun₂, hset₁.trans hset₂⟩
      · rw [if_neg hbt, if_neg (fun hand => hbt hand.2), run_nil]
        exact ⟨s₁, rfl, hset₁⟩

/-- The code of `load` leaves `v` in `rr` and changes nothing else. -/
def Materialises (rr : BitVec 5) (sv : SValue) (v : BitVec 64) : Prop :=
  ∃ ws, load rr sv = some ws ∧ ∀ s, ∃ s', run ws s = some s' ∧ Sets s rr v s'

theorem materialises_iff {rr : BitVec 5} (hrr : rr ≠ 0#5) {t : Scalar} {c v : BitVec 64} {m : Nat} :
    Materialises rr ⟨t, .VT_CONST c, m⟩ v ↔ loaded t c = v := by
  constructor
  · rintro ⟨ws, hws, hrun⟩
    obtain ⟨ws', hws', hrun'⟩ := load_const_loaded hrr t c
    obtain rfl := Option.some.inj (hws.symm.trans hws')
    obtain ⟨s₁, hs₁, hset₁⟩ := hrun ⟨fun _ => 0#64, fun _ => 0#8, 0#64⟩
    obtain ⟨s₂, hs₂, hset₂⟩ := hrun' ⟨fun _ => 0#64, fun _ => 0#8, 0#64⟩
    obtain rfl := Option.some.inj (hs₁.symm.trans hs₂)
    rw [← hset₁.value, ← hset₂.value]
  · rintro rfl
    exact load_const_loaded hrr t c

/-- What a constant means at its type: all of it, or its low word with the sign. -/
def constant_value (t : Scalar) (c : BitVec 64) : BitVec 64 := if t.isNarrow then sext32 c else c

/-- The constants that `load` gets right at a type. -/
def constant_fits (t : Scalar) (c : BitVec 64) : Prop :=
  sext32 c = c ∨
    if t.isNarrow then
      high_word c = 0#32 ∨ (high_word c = 1#32 ∧ rounds_over (c.setWidth 32))
    else if high_word c = 0#32 then t.bt = VT_LLONG
    else ¬ rounds_over (c.setWidth 32)

instance (t : Scalar) (c : BitVec 64) : Decidable (constant_fits t c) := by
  unfold constant_fits
  infer_instance

theorem high_word_eq_zero_iff {c : BitVec 64} : high_word c = 0#32 ↔ c.sshiftRight 32 = 0#64 := by
  rw [← BitVec.toInt_inj, high_word_toInt, ← BitVec.toInt_inj, BitVec.toInt_sshiftRight,
    Int.shiftRight_eq_div_pow]
  rfl

theorem large_value_eq_iff {c : BitVec 64} : large_value c = c ↔ ¬ rounds_over (c.setWidth 32) := by
  unfold large_value
  split
  · rename_i hover
    simp only [hover, not_true_eq_false, iff_false]
    intro heq
    have hzero : 0x100000000#64 = 0#64 := by
      rw [BitVec.sub_eq_iff_eq_add] at heq
      exact (BitVec.self_eq_add_right.mp heq)
    exact absurd hzero (by decide)
  · rename_i hover
    simp only [hover, not_false_eq_true]

theorem large_value_eq_low_iff {c : BitVec 64} (hc : sext32 c ≠ c) :
    large_value c = sext32 c ↔ high_word c = 1#32 ∧ rounds_over (c.setWidth 32) := by
  have hhigh := high_word_toInt c
  have hlow := low_word_toNat c
  have hcond := BitVec.toInt_eq_toNat_cond (c.setWidth 32)
  unfold large_value
  split
  · rename_i hover
    rw [and_iff_left hover, BitVec.sub_eq_iff_eq_add, ← BitVec.toInt_inj, ← BitVec.toInt_inj, hhigh]
    have hnonneg : (c.setWidth 32).toInt = (c.setWidth 32).toNat := by
      have hlt := (c.setWidth 32).isLt
      unfold rounds_over at hover
      split at hcond <;> omega
    have hsum : (sext32 c + 0x100000000#64).toInt = (c.setWidth 32).toInt + 2 ^ 32 := by
      have hlo := BitVec.le_toInt (c.setWidth 32)
      have hhi := BitVec.toInt_lt (x := c.setWidth 32)
      rw [sext32, BitVec.toInt_add, machine.toInt_signExtend]
      apply Int.bmod_eq_of_le_mul_two <;> simp at * <;> omega
    rw [hsum, show (1#32).toInt = 1 from rfl]
    constructor <;> intro h <;> omega
  · rename_i hover
    simp only [hover, and_false, iff_false]
    exact fun heq => hc heq.symm

theorem loaded_eq_iff (t : Scalar) (c : BitVec 64) :
    loaded t c = constant_value t c ↔ constant_fits t c := by
  have hnarrow : t.isNarrow = true → t.bt ≠ VT_LLONG := by
    intro hnarrow hbt
    rw [Scalar.isNarrow, hbt] at hnarrow
    exact absurd hnarrow (by decide)
  rw [loaded, constant_value, constant_fits, ← sext32]
  by_cases hc : sext32 c = c
  · simp [hc]
  · rw [if_neg hc, or_iff_right hc]
    by_cases hhigh : high_word c = 0#32
    · rw [if_neg (not_not.mpr (high_word_eq_zero_iff.mp hhigh))]
      by_cases hsize : t.isNarrow = true
      · simp [hsize, hnarrow hsize, hhigh]
      · rw [if_neg hsize, if_neg hsize, if_pos hhigh]
        by_cases hbt : t.bt = VT_LLONG
        · simp [hbt]
        · simp [hbt, hc]
    · rw [if_pos (mt high_word_eq_zero_iff.mpr hhigh)]
      by_cases hsize : t.isNarrow = true
      · rw [if_pos hsize, if_pos hsize, or_iff_right hhigh]
        exact large_value_eq_low_iff hc
      · rw [if_neg hsize, if_neg hsize, if_neg hhigh]
        exact large_value_eq_iff

/-- A constant is loaded right exactly when it fits: pointers to the upper half of
    the low 4 GiB and words that round over are not. -/
theorem load_constant_iff {rr : BitVec 5} (hrr : rr ≠ 0#5) {t : Scalar} (_ht : t.isInteger = true)
    (c : BitVec 64) (m : Nat) :
    Materialises rr ⟨t, .VT_CONST c, m⟩ (constant_value t c) ↔ constant_fits t c :=
  (materialises_iff hrr).trans (loaded_eq_iff t c)

theorem load_constant_llong : Materialises 10 ⟨.llong, .VT_CONST 0x123456789abcdef0#64, 0⟩
      (constant_value .llong 0x123456789abcdef0#64) ↔
    constant_fits .llong 0x123456789abcdef0#64 :=
  load_constant_iff (by decide) rfl _ 0

/-- A pointer to address `0x80000000` is sign-extended. -/
theorem ram_pointer_sign_extended : ¬ Materialises 10 ⟨⟨VT_PTR, true⟩, .VT_CONST 0x80000000#64, 0⟩
    (constant_value ⟨VT_PTR, true⟩ 0x80000000#64) := by
  rw [materialises_iff (by decide)]
  decide

end tcc.riscv64
