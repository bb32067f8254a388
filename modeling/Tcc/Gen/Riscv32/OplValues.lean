import Tcc.Gen.Riscv32.OplRuns
import Tcc.Machine.Words

open machine

/-! The values that `gen_opl` computes, against the operations on 64-bit integers. -/

namespace tcc.riscv32

open tcc.Op BType

def Held.value (v : Held) : BitVec 64 :=
  match v with
  | .const c => c
  | .pair lo hi => hi ++ lo
  | _ => 0#64

/-- The bits in which a loaded constant differs do not matter beside `x`. -/
def const_exact (op : Op) (x : BitVec 32) (c : BitVec 64) : Prop :=
  let wrong := loaded_const c ^^^ low_word c
  match op with
  | .and => low_word c = -1#32 ∨ x &&& wrong = 0#32
  | .or => (low_word c = -1#32 → wrong = 0#32) ∧ ~~~x &&& wrong = 0#32
  | _ => wrong = 0#32

/-- A bitwise operation gets its low word right. -/
def bitwise_exact (op : Op) (v1 v2 : Held) : Prop :=
  match v1, v2 with
  | .pair x _, .const c | .const c, .pair x _ => const_exact op x c
  | _, _ => True

/-- The high words alone make a comparison true. -/
def decides (op : Op) (h1 h2 : BitVec 32) : Bool :=
  match op with
  | TOK_LT | TOK_LE => h1.slt h2
  | TOK_GT | TOK_GE => h2.slt h1
  | TOK_ULT | TOK_ULE => h1.ult h2
  | TOK_UGT | TOK_UGE => h2.ult h1
  | _ => false

/-- The low words as they are loaded agree with the high words, if these decide, and compare as
    they should if they do not. -/
def cmp_exact (op : Op) (v1 v2 : Held) : Prop :=
  let low := (low_op op).holds v1.low.got v2.low.got
  (decides op (high_word v1.value) (high_word v2.value) = true → low = true) ∧
  (high_word v1.value = high_word v2.value →
    low = (low_op op).holds (low_word v1.value) (low_word v2.value))

/-- Nothing is shifted by zero, or what the other word gets too is there already; an arithmetic
    shift has only copies of the sign in its high word. -/
def shift_exact (op : Op) (x : BitVec 64) (n : Nat) : Prop :=
  if n = 0 then
    if op = TOK_SHL then low_word x ||| high_word x = high_word x else high_word x ||| low_word x = low_word x
  else op = TOK_SAR → high_word x = 0#32 ∨ high_word x = -1#32

/-- When `gen_opl` gets an operation right. -/
def opl_exact (op : Op) (v1 v2 : Held) : Prop :=
  match op with
  | .add | .sub | .mul => False
  | .and | .or | .xor => bitwise_exact op v1 v2
  | TOK_SHL | TOK_SHR | TOK_SAR => shift_exact op v1.value v2.value.toNat
  | op => cmp_exact op v1 v2

section

variable {op : Op} {v1 v2 : Held}

theorem const_exact_iff (hop : op = .and ∨ op = .or ∨ op = .xor) {x : BitVec 32} {c : BitVec 64} :
    bitwise_word op x c = op.alu x (low_word c) ↔ const_exact op x c := by
  have hlow : c.setWidth 32 = low_word c := rfl
  have hand (m l : BitVec 32) : x &&& m = x &&& l ↔ x &&& (m ^^^ l) = 0#32 := by
    have hdistrib : x &&& (m ^^^ l) = (x &&& m) ^^^ (x &&& l) := by
      ext i hi
      simp [Bool.and_xor_distrib_left]
    rw [hdistrib, BitVec.xor_eq_zero_iff]
  have hor (m l : BitVec 32) : x ||| m = x ||| l ↔ ~~~x &&& (m ^^^ l) = 0#32 := by
    have hdistrib : ~~~x &&& (m ^^^ l) = (x ||| m) ^^^ (x ||| l) := by
      ext i hi
      simp only [BitVec.getElem_and, BitVec.getElem_not, BitVec.getElem_xor, BitVec.getElem_or]
      cases x[i] <;> simp
    rw [hdistrib, BitVec.xor_eq_zero_iff]
  unfold bitwise_word const_exact
  rw [hlow]
  obtain rfl | rfl | rfl := hop
  · rw [if_neg (by simp)]
    by_cases h1 : low_word c = -1#32
    · rw [if_pos ⟨rfl, h1⟩, h1]
      simp only [true_or, iff_true]
      exact (BitVec.and_allOnes (x := x)).symm
    · rw [if_neg fun h => h1 h.2]
      simp only [h1, false_or]
      exact hand _ _
  · by_cases h1 : low_word c = -1#32
    · rw [if_pos ⟨rfl, h1⟩, h1]
      have hones : Op.or.alu x (-1#32) = -1#32 := BitVec.or_allOnes
      rw [hones]
      simp only [true_imp_iff, BitVec.xor_eq_zero_iff]
      constructor
      · intro heq
        refine ⟨heq, ?_⟩
        rw [heq, BitVec.xor_self, BitVec.and_zero]
      · rintro ⟨heq, -⟩
        exact heq
    · rw [if_neg fun h => h1 h.2, if_neg (by simp)]
      simp only [h1, false_imp_iff, true_and]
      exact hor _ _
  · rw [if_neg (by simp), if_neg (by simp)]
    simp only [BitVec.xor_eq_zero_iff]
    exact BitVec.xor_right_inj x

theorem loaded_const_high (c : BitVec 64) : loaded_const (c >>> 32) = high_word c := by
  refine loaded_const_of_extended (Or.inr ?_)
  apply BitVec.eq_of_toNat_eq
  have hlt := c.isLt
  rw [high_word, BitVec.toNat_setWidth, BitVec.toNat_setWidth, BitVec.toNat_ushiftRight,
    Nat.shiftRight_eq_div_pow]
  omega

theorem Held.Wide.high_got {v : Held} (hv : v.Wide) : v.high.got = high_word v.value := by
  cases v with
  | const c => exact loaded_const_high c
  | pair lo hi => exact (high_word_append hi lo).symm
  | word x | cmp o p q jtrue jfalse => exact absurd hv id

theorem alu_words (hop : op = .and ∨ op = .or ∨ op = .xor) (x y : BitVec 64) :
    high_word (op.alu x y) = op.alu (high_word x) (high_word y) ∧
      low_word (op.alu x y) = op.alu (low_word x) (low_word y) := by
  obtain rfl | rfl | rfl := hop <;> constructor <;> apply BitVec.eq_of_getLsbD_eq <;> intro i hi <;>
    simp only [Op.alu, getLsbD_low_word, getLsbD_high_word, BitVec.getLsbD_and, BitVec.getLsbD_or,
      BitVec.getLsbD_xor, decide_eq_true hi, Bool.true_and]

theorem alu_comm (hop : op = .and ∨ op = .or ∨ op = .xor) (x y : BitVec 32) : op.alu x y = op.alu y x := by
  obtain rfl | rfl | rfl := hop
  · exact BitVec.and_comm x y
  · exact BitVec.or_comm x y
  · exact BitVec.xor_comm x y

/-- One operand at most is a constant. -/
def one_const (v1 v2 : Held) : Prop :=
  match v1, v2 with
  | .const _, .const _ => False
  | _, _ => True

theorem wide_cases (hv1 : v1.Wide) (hv2 : v2.Wide) (hone : one_const v1 v2) :
    (∃ lo hi lo' hi', v1 = .pair lo hi ∧ v2 = .pair lo' hi') ∨ (∃ lo hi c, v1 = .pair lo hi ∧ v2 = .const c) ∨
      ∃ c lo hi, v1 = .const c ∧ v2 = .pair lo hi := by
  cases v1 with
  | pair lo hi =>
    cases v2 with
    | pair lo' hi' => exact Or.inl ⟨lo, hi, lo', hi', rfl, rfl⟩
    | const c => exact Or.inr (Or.inl ⟨lo, hi, c, rfl, rfl⟩)
    | _ => exact absurd hv2 id
  | const c =>
    cases v2 with
    | pair lo hi => exact Or.inr (Or.inr ⟨c, lo, hi, rfl, rfl⟩)
    | const c' => exact absurd hone id
    | _ => exact absurd hv2 id
  | _ => exact absurd hv1 id

theorem operable_words (hv1 : v1.Wide) (hv2 : v2.Wide) (hone : one_const v1 v2) :
    Operable v1.low v2.low ∧ Operable v1.high v2.high := by
  obtain ⟨lo, hi, lo', hi', rfl, rfl⟩ | ⟨lo, hi, c, rfl, rfl⟩ | ⟨c, lo, hi, rfl, rfl⟩ := wide_cases hv1 hv2 hone
  · exact ⟨trivial, trivial⟩
  · exact ⟨trivial, trivial⟩
  · exact ⟨trivial, trivial⟩

theorem bitwise_got_high (hop : op = .and ∨ op = .or ∨ op = .xor) (hv1 : v1.Wide) (hv2 : v2.Wide)
    (hone : one_const v1 v2) :
    bitwise_got op v1.high v2.high = op.alu (high_word v1.value) (high_word v2.value) := by
  have hconst (x : BitVec 32) (c : BitVec 64) : bitwise_word op x (c >>> 32) = op.alu x (high_word c) := by
    have hexact : const_exact op x (c >>> 32) := by
      have hright : loaded_const (c >>> 32) ^^^ low_word (c >>> 32) = 0#32 :=
        BitVec.xor_eq_zero_iff.mpr (loaded_const_high c)
      unfold const_exact
      rw [hright]
      obtain rfl | rfl | rfl := hop <;> simp
    exact (const_exact_iff hop).mpr hexact
  obtain ⟨lo, hi, lo', hi', rfl, rfl⟩ | ⟨lo, hi, c, rfl, rfl⟩ | ⟨c, lo, hi, rfl, rfl⟩ := wide_cases hv1 hv2 hone
  · change op.alu hi hi' = op.alu (high_word (hi ++ lo)) (high_word (hi' ++ lo'))
    rw [high_word_append, high_word_append]
  · change bitwise_word op hi (c >>> 32) = op.alu (high_word (hi ++ lo)) (high_word c)
    rw [high_word_append]
    exact hconst hi c
  · change bitwise_word op hi (c >>> 32) = op.alu (high_word c) (high_word (hi ++ lo))
    rw [high_word_append, alu_comm hop]
    exact hconst hi c

theorem bitwise_got_low (hop : op = .and ∨ op = .or ∨ op = .xor) (hv1 : v1.Wide) (hv2 : v2.Wide)
    (hone : one_const v1 v2) :
    bitwise_got op v1.low v2.low = op.alu (low_word v1.value) (low_word v2.value) ↔ bitwise_exact op v1 v2 := by
  obtain ⟨lo, hi, lo', hi', rfl, rfl⟩ | ⟨lo, hi, c, rfl, rfl⟩ | ⟨c, lo, hi, rfl, rfl⟩ := wide_cases hv1 hv2 hone
  · change op.alu lo lo' = op.alu (low_word (hi ++ lo)) (low_word (hi' ++ lo')) ↔ True
    rw [low_word_append, low_word_append]
    exact iff_of_true rfl trivial
  · change bitwise_word op lo c = op.alu (low_word (hi ++ lo)) (low_word c) ↔ const_exact op lo c
    rw [low_word_append]
    exact const_exact_iff hop
  · change bitwise_word op lo c = op.alu (low_word c) (low_word (hi ++ lo)) ↔ const_exact op lo c
    rw [low_word_append, alu_comm hop]
    exact const_exact_iff hop

/-- The value of the pair that a run leaves. -/
theorem pair_value (t : Scalar) (lo hi : BitVec 32) (js : List (Chain × Bool)) (v : BitVec 64) :
    (State.mk [⟨t, .pair lo hi⟩] js).value? = some v ↔ hi = high_word v ∧ lo = low_word v := by
  rw [← append_eq_iff]
  exact Option.some_inj

theorem yields_words_iff {e1 e2 : Entry} {cmds : List Cmd} (hgen : gen_opl op e1 e2 = .words cmds)
    (v : BitVec 64) : Yields op e1 e2 v ↔
      (∃ s, Steps cmds ⟨[e2, e1], []⟩ s) ∧ ∀ s, Steps cmds ⟨[e2, e1], []⟩ s → s.value? = some v := by
  unfold Yields
  rw [hgen]
  constructor
  · rintro ⟨cmds', heq, hruns⟩
    cases heq
    exact hruns
  · intro hruns
    exact ⟨cmds, rfl, hruns⟩

theorem bitwise_yields_iff (hop : op = .and ∨ op = .or ∨ op = .xor) {t : Scalar} (hv1 : v1.Wide) (hv2 : v2.Wide)
    (hone : one_const v1 v2) :
    Yields op ⟨t, v1⟩ ⟨t, v2⟩ (op.alu v1.value v2.value) ↔ bitwise_exact op v1 v2 := by
  have hgen : gen_opl op ⟨t, v1⟩ ⟨t, v2⟩ = .words (gen_opl_arith op t) := by
    obtain rfl | rfl | rfl := hop <;> rfl
  obtain ⟨hlow, hhigh⟩ := operable_words hv1 hv2 hone
  obtain ⟨hwhigh, hwlow⟩ := alu_words hop v1.value v2.value
  have hvalue := pair_value t (bitwise_got op v1.low v2.low) (bitwise_got op v1.high v2.high) []
    (op.alu v1.value v2.value)
  rw [hwhigh, hwlow, bitwise_got_low hop hv1 hv2 hone] at hvalue
  rw [yields_words_iff hgen]
  simp only [steps_bitwise hop hv1 hv2 hlow hhigh, exists_eq, true_and, forall_eq]
  rw [hvalue]
  exact and_iff_right (bitwise_got_high hop hv1 hv2 hone)

/-- The result of a shift of 64 bits. -/
def shift_value (op : Op) (x : BitVec 64) (n : Nat) : BitVec 64 :=
  match op with
  | TOK_SHL => x <<< n
  | TOK_SHR => x >>> n
  | _ => x.sshiftRight n

/-- The words of a logical shift are right unless both are wanted in one place. -/
theorem shifts_two_shl {x : BitVec 64} {n : Nat} (hn : n < 64) {p q : BitVec 32} :
    ShiftsTwo TOK_SHL (low_word x) (high_word x) n p q ↔
      p = low_word (x <<< n) ∧ q = if n = 0 then low_word x ||| high_word x else high_word (x <<< n) := by
  rw [low_word_shiftLeft, high_word_shiftLeft _ hn]
  unfold ShiftsTwo Shifts
  by_cases hsmall : n < 32
  · have hmod : (BitVec.ofNat 32 n).toNat % 32 = n := by
      rw [BitVec.toNat_ofNat]
      omega
    simp only [if_pos hsmall, if_true, if_neg (by decide : ¬TOK_SHL = TOK_SAR), Op.alu, hmod]
    by_cases h0 : n = 0
    · subst h0
      simp
    · rw [if_neg h0, Nat.mod_eq_of_lt (by omega : 32 - n < 32)]
  · have hmod : (BitVec.ofNat 32 (n - 32)).toNat % 32 = n - 32 := by
      rw [BitVec.toNat_ofNat]
      omega
    simp only [if_neg hsmall, if_neg (by decide : ¬TOK_SHL = TOK_SAR), Op.alu, hmod, if_neg (by omega : ¬n = 0)]
    exact and_comm

theorem shifts_two_shr {x : BitVec 64} {n : Nat} (hn : n < 64) {p q : BitVec 32} :
    ShiftsTwo TOK_SHR (high_word x) (low_word x) n p q ↔
      p = high_word (x >>> n) ∧ q = if n = 0 then high_word x ||| low_word x else low_word (x >>> n) := by
  rw [high_word_ushiftRight, low_word_ushiftRight _ hn]
  unfold ShiftsTwo Shifts
  by_cases hsmall : n < 32
  · have hmod : (BitVec.ofNat 32 n).toNat % 32 = n := by
      rw [BitVec.toNat_ofNat]
      omega
    simp only [if_pos hsmall, if_neg (by decide : ¬TOK_SHR = TOK_SHL), if_neg (by decide : ¬TOK_SHR = TOK_SAR),
      Op.alu, hmod]
    by_cases h0 : n = 0
    · subst h0
      simp
    · rw [if_neg h0, Nat.mod_eq_of_lt (by omega : 32 - n < 32)]
  · have hmod : (BitVec.ofNat 32 (n - 32)).toNat % 32 = n - 32 := by
      rw [BitVec.toNat_ofNat]
      omega
    simp only [if_neg hsmall, if_neg (by decide : ¬TOK_SHR = TOK_SAR), Op.alu, hmod, if_neg (by omega : ¬n = 0)]
    exact and_comm

/-- The words of an arithmetic shift. -/
theorem shifts_two_sar {x : BitVec 64} {n : Nat} (hn : n < 64) :
    (∃ p q, ShiftsTwo TOK_SAR (high_word x) (low_word x) n p q) ∧
      ((∀ p q, ShiftsTwo TOK_SAR (high_word x) (low_word x) n p q →
        p = high_word (x.sshiftRight n) ∧ q = low_word (x.sshiftRight n)) ↔ shift_exact TOK_SAR x n) := by
  rw [high_word_sshiftRight, low_word_sshiftRight _ hn]
  unfold ShiftsTwo Shifts shift_exact
  generalize high_word x = h
  generalize low_word x = l
  by_cases hsmall : n < 32
  · simp only [if_pos hsmall, if_neg (by decide : ¬TOK_SAR = TOK_SHL), if_true]
    refine ⟨⟨_, _, ⟨⟨0, by decide, fun _ => rfl, rfl⟩, rfl⟩⟩, ?_⟩
    by_cases h0 : n = 0
    · subst h0
      rw [if_pos rfl, BitVec.sshiftRight_zero, BitVec.ushiftRight_zero,
        Nat.sub_zero, Nat.mod_self, BitVec.shiftLeft_zero, BitVec.shiftLeft_eq_zero (le_refl 32), BitVec.zero_or]
      constructor
      · intro hall
        exact (hall _ _ ⟨⟨0, by decide, fun _ => rfl, rfl⟩, rfl⟩).2
      · rintro hexact p q ⟨⟨m, -, hm, rfl⟩, rfl⟩
        rw [hm rfl, BitVec.sshiftRight_zero]
        exact ⟨rfl, hexact⟩
    · rw [if_neg h0, Nat.mod_eq_of_lt (by omega : 32 - n < 32)]
      constructor
      · intro hall _
        have hzero := (hall _ _ ⟨⟨0, by decide, fun h => absurd h h0, rfl⟩, rfl⟩).1
        rw [BitVec.sshiftRight_zero] at hzero
        exact sign_of_sshiftRight (Nat.pos_of_ne_zero h0) hzero.symm
      · rintro hexact p q ⟨⟨m, -, -, rfl⟩, rfl⟩
        rw [sshiftRight_sign (hexact trivial), sshiftRight_sign (hexact trivial)]
        exact ⟨rfl, rfl⟩
  · simp only [if_neg hsmall, if_true, if_neg (by omega : ¬n = 0)]
    refine ⟨⟨_, _, ⟨⟨0, by decide, fun _ => rfl, rfl⟩, ⟨0, by decide, by decide, rfl⟩⟩⟩, ?_⟩
    constructor
    · intro hall _
      have hzero := (hall _ _ ⟨⟨0, by decide, fun _ => rfl, rfl⟩, ⟨0, by decide, by decide, rfl⟩⟩).1
      rw [BitVec.sshiftRight_zero, BitVec.sshiftRight_zero] at hzero
      exact sign_of_sshiftRight (by decide) hzero.symm
    · rintro hexact p q ⟨⟨m, -, -, rfl⟩, ⟨m', -, -, rfl⟩⟩
      rw [sshiftRight_sign (hexact trivial), sshiftRight_sign (hexact trivial), sshiftRight_sign (hexact trivial),
        sshiftRight_sign (hexact trivial)]
      exact ⟨rfl, rfl⟩

/-- Runs that leave pairs. -/
theorem pair_runs_iff {R : BitVec 32 → BitVec 32 → Prop} {f : BitVec 32 → BitVec 32 → Held} (t : Scalar)
    {v : BitVec 64} {right : BitVec 32 → BitVec 32 → Prop}
    (hf : ∀ p q, (State.mk [⟨t, f p q⟩] []).value? = some v ↔ right p q) :
    ((∃ s : State, ∃ p q, R p q ∧ s = ⟨[⟨t, f p q⟩], []⟩) ∧
      ∀ s : State, (∃ p q, R p q ∧ s = ⟨[⟨t, f p q⟩], []⟩) → s.value? = some v) ↔
      (∃ p q, R p q) ∧ ∀ p q, R p q → right p q := by
  constructor
  · rintro ⟨⟨s, p, q, hR, -⟩, hall⟩
    exact ⟨⟨p, q, hR⟩, fun p q hR => (hf p q).mp (hall _ ⟨p, q, hR, rfl⟩)⟩
  · rintro ⟨⟨p, q, hR⟩, hall⟩
    refine ⟨⟨_, p, q, hR, rfl⟩, ?_⟩
    rintro s ⟨p, q, hR, rfl⟩
    exact (hf p q).mpr (hall p q hR)

theorem shift_yields_iff (hop : op.isShift = true) {t t2 : Scalar} (hu : op = TOK_SAR → t.unsigned = false)
    {c : BitVec 64} (hc : c.toNat < 64) (lo hi : BitVec 32) :
    Yields op ⟨t, .pair lo hi⟩ ⟨t2, .const c⟩ (shift_value op (hi ++ lo) c.toNat) ↔
      shift_exact op (hi ++ lo) c.toNat := by
  have hcount : (c.setWidth 32).toInt = (c.toNat : Int) := by
    rw [BitVec.toInt_eq_toNat_cond, BitVec.toNat_setWidth, Nat.mod_eq_of_lt (by omega), if_pos (by omega)]
  have hgen : gen_opl op ⟨t, .pair lo hi⟩ ⟨t2, .const c⟩ = .words (gen_opl_shift op t c.toNat) := by
    rw [← hcount]
    obtain rfl | rfl | rfl := isShift_cases hop <;> rfl
  have hhigh : high_word (hi ++ lo) = hi := high_word_append hi lo
  have hlow : low_word (hi ++ lo) = lo := low_word_append hi lo
  rw [yields_words_iff hgen]
  simp only [steps_shift hop hu hc]
  generalize (hi ++ lo : BitVec 64) = x at *
  subst hhigh hlow
  obtain rfl | rfl | rfl := isShift_cases hop
  · simp only [if_true]
    rw [pair_runs_iff t fun p q => pair_value t p q [] _]
    simp only [shifts_two_shl hc, shift_value, shift_exact]
    constructor
    · rintro ⟨-, hall⟩
      obtain ⟨hq, -⟩ := hall _ _ ⟨rfl, rfl⟩
      split
      · rename_i h0
        rw [if_pos h0, h0, BitVec.shiftLeft_zero] at hq
        exact hq
      · nofun
    · intro hexact
      refine ⟨⟨_, _, rfl, rfl⟩, ?_⟩
      rintro p q ⟨rfl, rfl⟩
      refine ⟨?_, rfl⟩
      split
      · rename_i h0
        rw [if_pos h0] at hexact
        rw [h0, BitVec.shiftLeft_zero]
        exact hexact
      · rfl
  · simp only [if_neg (by decide : ¬TOK_SHR = TOK_SHL)]
    rw [pair_runs_iff t fun p q => pair_value t q p [] _]
    simp only [shifts_two_shr hc, shift_value, shift_exact, if_neg (by decide : ¬TOK_SHR = TOK_SHL)]
    constructor
    · rintro ⟨-, hall⟩
      obtain ⟨-, hq⟩ := hall _ _ ⟨rfl, rfl⟩
      split
      · rename_i h0
        rw [if_pos h0, h0, BitVec.ushiftRight_zero] at hq
        exact hq
      · nofun
    · intro hexact
      refine ⟨⟨_, _, rfl, rfl⟩, ?_⟩
      rintro p q ⟨rfl, rfl⟩
      refine ⟨rfl, ?_⟩
      split
      · rename_i h0
        rw [if_pos h0] at hexact
        rw [h0, BitVec.ushiftRight_zero]
        exact hexact
      · rfl
  · simp only [if_neg (by decide : ¬TOK_SAR = TOK_SHL)]
    rw [pair_runs_iff t fun p q => pair_value t q p [] _]
    obtain ⟨hexists, hiff⟩ := shifts_two_sar (x := x) hc
    exact (and_iff_right hexists).trans hiff

end

section

variable {op : Op}

theorem sle_eq (x y : BitVec 32) : (!y.slt x) = (x.slt y || x == y) := by
  rw [Bool.eq_iff_iff]
  simp only [Bool.or_eq_true, Bool.not_eq_true', ← Bool.not_eq_true, beq_iff_eq, BitVec.slt_iff_toInt_lt,
    ← BitVec.toInt_inj]
  omega

theorem ule_eq (x y : BitVec 32) : (!y.ult x) = (x.ult y || x == y) := by
  rw [Bool.eq_iff_iff]
  simp only [Bool.or_eq_true, Bool.not_eq_true', ← Bool.not_eq_true, beq_iff_eq, BitVec.ult_iff_lt,
    BitVec.lt_def, ← BitVec.toNat_inj]
  omega

/-- The comparison of the high words in the code. -/
theorem high_op_holds (hop : op.isCmp = true) (h1 h2 : BitVec 32) :
    (high_op op).holds h1 h2 = if op = TOK_NE then h1 != h2 else (decides op h1 h2 || h1 == h2) := by
  cases op with
  | TOK_EQ | TOK_NE => rfl
  | TOK_LT | TOK_LE => exact sle_eq h1 h2
  | TOK_GT | TOK_GE =>
    refine (sle_eq h2 h1).trans ?_
    rw [Bool.beq_comm]
    rfl
  | TOK_ULT | TOK_ULE => exact ule_eq h1 h2
  | TOK_UGT | TOK_UGE =>
    refine (ule_eq h2 h1).trans ?_
    rw [Bool.beq_comm]
    rfl
  | _ => cases hop

theorem decides_ne {h1 h2 : BitVec 32} (hdecides : decides op h1 h2 = true) : h1 ≠ h2 := by
  rintro rfl
  have hslt : h1.slt h1 = false := by simp [BitVec.slt]
  have hult : h1.ult h1 = false := by simp [BitVec.ult]
  cases op <;> simp [decides, hslt, hult] at hdecides

/-- Not the one way, so the other way or equal. -/
theorem not_words {a d e b : Bool} (ha : (!a) = (d || e)) (hde : d = true → e = false) :
    (!(a || (e && b))) = (d || (e && !b)) := by
  cases a <;> cases d <;> cases e <;> cases b <;> simp_all

/-- A comparison of 64 bits, by words. -/
theorem holds_words (hop : op.isCmp = true) (x y : BitVec 64) :
    op.holds x y = if op = TOK_NE then high_word x != high_word y || (low_op op).holds (low_word x) (low_word y)
      else decides op (high_word x) (high_word y) ||
        (high_word x == high_word y && (low_op op).holds (low_word x) (low_word y)) := by
  have heq : (x == y) = (high_word x == high_word y && low_word x == low_word y) := by
    have hx := toNat_words x
    have hy := toNat_words y
    have hlx := (low_word x).isLt
    have hly := (low_word y).isLt
    rw [Bool.eq_iff_iff]
    simp only [Bool.and_eq_true, beq_iff_eq, ← BitVec.toNat_inj]
    omega
  have hcomm : (high_word y == high_word x) = (high_word x == high_word y) := Bool.beq_comm
  have hne (o : Op) : decides o (high_word x) (high_word y) = true → (high_word x == high_word y) = false :=
    fun h => beq_false_of_ne (decides_ne h)
  cases op with
  | TOK_EQ => exact heq
  | TOK_NE =>
    change (!(x == y)) = (!(high_word x == high_word y) || !(low_word x == low_word y))
    rw [heq, Bool.not_and]
  | TOK_LT => exact slt_words x y
  | TOK_GT =>
    refine (slt_words y x).trans ?_
    rw [hcomm]
    rfl
  | TOK_ULT => exact ult_words x y
  | TOK_UGT =>
    refine (ult_words y x).trans ?_
    rw [hcomm]
    rfl
  | TOK_LE =>
    refine (congrArg not (slt_words y x)).trans ?_
    rw [hcomm]
    exact not_words (sle_eq _ _) (hne TOK_LE)
  | TOK_GE =>
    refine (congrArg not (slt_words x y)).trans ?_
    exact not_words ((sle_eq _ _).trans (by rw [hcomm]; rfl)) (hne TOK_GE)
  | TOK_ULE =>
    refine (congrArg not (ult_words y x)).trans ?_
    rw [hcomm]
    exact not_words (ule_eq _ _) (hne TOK_ULE)
  | TOK_UGE =>
    refine (congrArg not (ult_words x y)).trans ?_
    exact not_words ((ule_eq _ _).trans (by rw [hcomm]; rfl)) (hne TOK_UGE)
  | _ => cases hop

/-- What the code of a comparison finds is right. -/
theorem cmp_result_iff (hop : op.isCmp = true) (x y : BitVec 64) (l1 l2 : BitVec 32) :
    cmp_result op (high_word x) (high_word y) l1 l2 = op.holds x y ↔
      (decides op (high_word x) (high_word y) = true → (low_op op).holds l1 l2 = true) ∧
      (high_word x = high_word y → (low_op op).holds l1 l2 = (low_op op).holds (low_word x) (low_word y)) := by
  rw [holds_words hop, cmp_result, high_op_holds hop]
  have hne : decides op (high_word x) (high_word y) = true → high_word x ≠ high_word y := decides_ne
  generalize (low_op op).holds l1 l2 = l'
  generalize (low_op op).holds (low_word x) (low_word y) = l
  by_cases heq : high_word x = high_word y
  · have hd : decides op (high_word x) (high_word y) = false := by
      rw [← Bool.not_eq_true]
      exact fun h => hne h heq
    rw [hd, heq]
    by_cases hn : op = TOK_NE <;> simp [hn]
  · have hb : (high_word x == high_word y) = false := beq_false_of_ne heq
    rw [hb]
    by_cases hn : op = TOK_NE
    · subst hn
      simp [hb, heq, decides, bne]
    · simp [hn, heq]

theorem cmp_yields_iff (hop : op.isCmp = true) {t : Scalar} (hsigned : op.signed = true → t.unsigned = false)
    {v1 v2 : Held} (hv1 : v1.Wide) (hv2 : v2.Wide) (hone : one_const v1 v2) :
    Yields op ⟨t, v1⟩ ⟨t, v2⟩ (boolWord (op.holds v1.value v2.value)) ↔ cmp_exact op v1 v2 := by
  have hgen : gen_opl op ⟨t, v1⟩ ⟨t, v2⟩ = .words (gen_opl_cmp op) := by
    cases op <;> first | rfl | cases hop
  obtain ⟨hlow, hhigh⟩ := operable_words hv1 hv2 hone
  obtain ⟨⟨s, hsteps⟩, hvalue⟩ := steps_cmp hop hsigned hv1 hv2 hlow hhigh
  have hinj {a b : Bool} : some (boolWord a) = some (boolWord b) ↔ a = b := by
    cases a <;> cases b <;> decide
  rw [yields_words_iff hgen, cmp_exact, ← cmp_result_iff hop, ← hv1.high_got, ← hv2.high_got]
  constructor
  · rintro ⟨-, hall⟩
    rw [← hinj, ← hvalue s hsteps]
    exact hall s hsteps
  · intro hresult
    refine ⟨⟨s, hsteps⟩, fun s' hsteps' => ?_⟩
    rw [hvalue s' hsteps', hresult]

end

/-- Operands of the operators that `gen_opl` expands into operations on words: those of one type
    that `gen_op` has brought them to, or an `int` constant to shift by. Two constants do not get
    here. -/
structure OplOperands (op : Op) (v1 v2 : Entry) : Prop where
  expanded : (op = .add ∨ op = .sub ∨ op = .mul) ∨ (op = .and ∨ op = .or ∨ op = .xor) ∨ op.isShift = true ∨
    op.isCmp = true
  type : v1.type.bt = VT_LLONG
  signed : op.signed = true → v1.type.unsigned = false
  left : v1.held.Wide
  right : v2.held.Wide
  types : v2.type = if op.isShift then .int else v1.type
  count : op.isShift = true → ∃ c : BitVec 64, v2.held = .const c ∧ c.toNat < 64
  one : one_const v1.held v2.held

end tcc.riscv32
