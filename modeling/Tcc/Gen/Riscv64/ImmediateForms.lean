import Tcc.Gen.Riscv64.CompareForms
import Tcc.Gen.Riscv64.Constant

open machine machine.rv64

namespace tcc.riscv64

open tcc.Op

/-! `gen_opil` on an operand in register `a` and a constant `c` of type `t`, which goes to
    register `b` where it is loaded; `d` is the register of the result. -/

section

variable (op : Op) (ll : Bool) (t : Scalar) (c : BitVec 64) (d a b : BitVec 5)

/-- The register code, after the constant has been loaded. -/
def gen_opil_loaded : Option (List Word × Result) :=
  (load_const b t false 0 c).bind fun ws =>
    (gen_opil_reg op ll d a b).map fun res => (ws ++ res.1, res.2)

/-- `fc == vtop->c.i && !(((unsigned)fc + (1 << 11)) >> 12)` -/
def IsSmall : Prop := (c.setWidth 32).signExtend 64 = c ∧ imm12 (c.setWidth 32)

instance : Decidable (IsSmall c) := inferInstanceAs (Decidable (_ ∧ _))

/-- The operators with an immediate instruction of their own. -/
def gen_opil_single : Option (List Word × Result) :=
  if IsSmall c then
    match gen_opil_imm op ll (c.setWidth 32) with
    | .cop w f3 imm =>
      (EI (0x13#7 ||| w) f3 d a imm).map fun i =>
        ([i], if op.isCmp then .cmp TOK_NE d 0 else .reg d)
    | _ => gen_opil_loaded op ll t c d a b
  else gen_opil_loaded op ll t c d a b

/-- `vtop->cmp_op ^= 1` -/
def invert (res : List Word × Result) : Option (List Word × Result) :=
  match res.2 with
  | .cmp op a b => some (res.1, .cmp op.xor1 a b)
  | .reg _ => none

/-- A comparison of the result register with `x0`. -/
def compare_result (res : List Word × Result) : Option (List Word × Result) :=
  match res.2 with
  | .reg d => some (res.1, .cmp op d 0)
  | .cmp _ _ _ => none

def gen_opil_const : Option (List Word × Result) :=
  if IsSmall c then
    match gen_opil_imm op ll (c.setWidth 32) with
    | .inverted op' => (gen_opil_single op' ll t c d a b).bind invert
    | .compare =>
      if c.setWidth 32 ≠ 0#32 then (gen_opil_single .sub ll t c d a b).bind (compare_result op)
      else some ([], .cmp op a 0)
    | _ => gen_opil_single op ll t c d a b
  else gen_opil_loaded op ll t c d a b

end

/-- The code of a result and the register that then holds it, `r` for a comparison. -/
def result_code (r : BitVec 5) (res : List Word × Result) : List Word × BitVec 5 :=
  match res.2 with
  | .reg d => (res.1, d)
  | .cmp op a b => (res.1 ++ load_cmp r op a b, r)

/-- The code of a result of `op` on `x` and `y` leaves the value in register `d`, or two
    registers that compare as `x` and `y` do. Only `d` and `b` change. -/
def Computes (op : Op) (ll : Bool) (x y : BitVec 64) (d b : BitVec 5) (h : Hart)
    (res : List Word × Result) : Prop :=
  ∃ h', run res.1 h = some h' ∧ (∀ q, q ≠ d → q ≠ b → h'.get q = h.get q) ∧
    match res.2 with
    | .reg q => op.isCmp = false ∧ q = d ∧ h'.get d = opil_value op ll x y
    | .cmp o p q =>
      op.isCmp = true ∧ o.isCmp = true ∧ o.holds (h'.get p) (h'.get q) = op.holds x y

theorem Computes.result_code {op : Op} {ll : Bool} {x y : BitVec 64} {d b r : BitVec 5} {h : Hart}
    {res : List Word × Result} (hres : Computes op ll x y d b h res) (hr : r ≠ 0#5) :
    ∃ h', run (result_code r res).1 h = some h' ∧
      (∀ q, q ≠ d → q ≠ r → q ≠ b → h'.get q = h.get q) ∧
      h'.get (result_code r res).2 = opil_value op ll x y := by
  obtain ⟨ws, result⟩ := res
  obtain ⟨h₁, hrun, hkeep, hval⟩ := hres
  cases result with
  | reg q =>
    obtain ⟨hop, rfl, hval⟩ := hval
    exact ⟨h₁, hrun, fun p hd _ hb => hkeep p hd hb, hval⟩
  | cmp o p q =>
    obtain ⟨hop, ho, hval⟩ := hval
    obtain ⟨h₂, hload, hsets⟩ := load_cmp_run h₁ hr o ho p q
    refine ⟨h₂, ?_, fun s hd hsr hb => (hsets.frame s hsr).trans (hkeep s hd hb), ?_⟩
    · change run (ws ++ load_cmp r o p q) h = _
      rw [run_append, hrun]
      exact hload
    · rw [opil_value, if_pos hop, ← hval]
      exact hsets.value

section

variable {op : Op} {ll : Bool} {t : Scalar} {c : BitVec 64} {d a b : BitVec 5} {h : Hart}

theorem gen_opil_loaded_computes (hland : op ≠ TOK_LAND) (hlor : op ≠ TOK_LOR) (hd : d ≠ 0#5)
    (hb : b ≠ 0#5) (hab : a ≠ b) :
    ∃ res, gen_opil_loaded op ll t c d a b = some res ∧
      Computes op ll (h.get a) (loaded t c) d b h res := by
  obtain ⟨ws, hload, hrun⟩ := load_const_loaded hb t c
  obtain ⟨h₁, hrun₁, hsets⟩ := hrun h
  by_cases hop : op.isCmp = true
  · refine ⟨(ws ++ [], .cmp op a b), ?_, h₁, ?_, fun q _ hq => hsets.frame q hq, hop, hop, ?_⟩
    · rw [gen_opil_loaded, hload, Option.bind_some, gen_opil_reg_cmp op ll d a b hop]
      rfl
    · rw [run_append, hrun₁]
      rfl
    · rw [hsets.value, hsets.frame a hab]
  · rw [Bool.not_eq_true] at hop
    obtain ⟨w, hgen, hexec⟩ := gen_opil_reg_alu op ll d a b h₁ hop hland hlor
    rw [hsets.value, hsets.frame a hab] at hexec
    have hset := Sets.set_next h₁ hd (opil_value op ll (h.get a) (loaded t c))
    refine ⟨(ws ++ [w], .reg d), ?_, _, ?_,
      fun q hqd hqb => (hset.frame q hqd).trans (hsets.frame q hqb), hop, rfl, hset.value⟩
    · rw [gen_opil_loaded, hload, Option.bind_some, hgen]
      rfl
    · rw [run_append, hrun₁, Option.bind_some, run_cons, hexec]
      rfl

/-- The immediate of an immediate form never fails the assertion of its encoder. -/
theorem gen_opil_imm_fits {fc imm : BitVec 32} {w : BitVec 7} {f3 : BitVec 3} (hfc : imm12 fc)
    (himm : gen_opil_imm op ll fc = .cop w f3 imm) : imm12 imm := by
  have hfit := (imm12_iff fc).mp hfc
  have hsucc (hbound : ¬(2047#32).sle fc) : imm12 (fc + 1#32) := by
    rw [BitVec.sle_iff_toInt_le, show (2047#32).toInt = 2047 from rfl] at hbound
    rw [imm12_iff, BitVec.toInt_add, show (1#32).toInt = 1 from rfl, Int.bmod_eq_of_le] <;> omega
  have hshift {m : BitVec 32} (hm : m = 31#32 ∨ m = 63#32) :
      imm12 (fc &&& m) ∧ imm12 (1024#32 ||| fc &&& m) := by
    have hle : (fc &&& m).toNat ≤ 63 := by
      rw [BitVec.toNat_and]
      refine Nat.and_le_right.trans ?_
      obtain rfl | rfl := hm <;> decide
    have hor : (1024#32 ||| fc &&& m).toNat = 1024 + (fc &&& m).toNat := by
      rw [BitVec.toNat_or]
      exact (Nat.two_pow_add_eq_or_of_lt (i := 10) (b := (fc &&& m).toNat) (by omega) 1).symm
    rw [imm12_iff, imm12_iff, BitVec.toInt_eq_toNat_cond, BitVec.toInt_eq_toNat_cond, hor,
      if_pos (by omega), if_pos (by omega)]
    omega
  have hm : (if ll then 63#32 else 31#32 : BitVec 32) = 31#32 ∨
      (if ll then 63#32 else 31#32 : BitVec 32) = 63#32 := by
    cases ll
    · exact .inl rfl
    · exact .inr rfl
  cases op with
  | sub =>
    simp only [gen_opil_imm] at himm
    split at himm
    · cases himm
    · rename_i hbound
      cases himm
      rw [BitVec.sle_iff_toInt_le, show (-2048#32).toInt = -2048 from rfl] at hbound
      rw [imm12_iff, BitVec.toInt_neg, Int.bmod_eq_of_le] <;> omega
  | TOK_LE =>
    simp only [gen_opil_imm] at himm
    split at himm
    · cases himm
    · rename_i hbound
      cases himm
      exact hsucc hbound
  | TOK_ULE =>
    simp only [gen_opil_imm] at himm
    split at himm
    · cases himm
    · rename_i hbound
      cases himm
      exact hsucc fun hle => hbound (.inl hle)
  | TOK_SHL | TOK_SHR =>
    cases himm
    exact (hshift hm).1
  | TOK_SAR =>
    cases himm
    exact (hshift hm).2
  | add | xor | or | and | TOK_LT | TOK_ULT =>
    cases himm
    exact hfc
  | _ => cases himm

theorem loaded_of_small (t : Scalar) (hc : IsSmall c) :
    loaded t c = (c.setWidth 32).signExtend 64 := by
  rw [loaded, if_pos hc.1, hc.1]

theorem gen_opil_single_computes (hland : op ≠ TOK_LAND) (hlor : op ≠ TOK_LOR) (hd : d ≠ 0#5)
    (hb : b ≠ 0#5) (hab : a ≠ b) :
    ∃ res, gen_opil_single op ll t c d a b = some res ∧
      Computes op ll (h.get a) (loaded t c) d b h res := by
  have hloaded : ∃ res, gen_opil_loaded op ll t c d a b = some res ∧
      Computes op ll (h.get a) (loaded t c) d b h res :=
    gen_opil_loaded_computes hland hlor hd hb hab
  rw [gen_opil_single]
  split
  · rename_i hsmall
    split
    · rename_i w f3 imm himm
      obtain ⟨instr, hinstr⟩ : ∃ instr, EI (0x13#7 ||| w) f3 d a imm = some instr :=
        ⟨_, if_pos (gen_opil_imm_fits hsmall.2 himm)⟩
      obtain ⟨h', hrun, hsets⟩ := gen_opil_imm_run himm hd hinstr hsmall.2 h
      rw [← loaded_of_small t hsmall] at hsets
      refine ⟨_, by rw [hinstr, Option.map_some], h', hrun, fun q hq _ => hsets.frame q hq, ?_⟩
      by_cases hop : op.isCmp = true
      · rw [if_pos hop]
        have hval := hsets.value
        rw [opil_value, if_pos hop] at hval
        refine ⟨hop, rfl, ?_⟩
        change TOK_NE.holds _ 0#64 = _
        rw [hval]
        cases op.holds (h.get a) (loaded t c) <;> rfl
      · rw [if_neg hop]
        exact ⟨Bool.not_eq_true _ ▸ hop, rfl, hsets.value⟩
    · exact hloaded
  · exact hloaded

theorem Computes.invert {op' : Op} {x y : BitVec 64} {res : List Word × Result}
    (hres : Computes op ll x y d b h res) (hop : op.isCmp = true) (hop' : op' = op.xor1) :
    ∃ res', invert res = some res' ∧ Computes op' ll x y d b h res' := by
  obtain ⟨ws, result⟩ := res
  obtain ⟨h', hrun, hkeep, hval⟩ := hres
  cases result with
  | reg q => exact absurd (hval.1.symm.trans hop) (by decide)
  | cmp o p q =>
    obtain ⟨-, ho, hval⟩ := hval
    subst hop'
    refine ⟨(ws, .cmp o.xor1 p q), rfl, h', hrun, hkeep, isCmp_xor1 hop, isCmp_xor1 ho, ?_⟩
    rw [holds_xor1 ho, holds_xor1 hop, hval]

/-- A difference is zero exactly when the operands are equal; a difference of words only
    tells this of words. -/
theorem sub_value_bne (ll : Bool) {x y : BitVec 64} (hx : ll = false → IsWord x)
    (hy : ll = false → IsWord y) : (opil_value .sub ll x y != 0#64) = (x != y) := by
  cases ll with
  | true => exact sub_bne_zero x y
  | false =>
    obtain ⟨u, rfl⟩ := (hx rfl).exists_eq
    obtain ⟨v, rfl⟩ := (hy rfl).exists_eq
    rw [opil_value_word rfl, Bool.eq_iff_iff, bne_iff_ne, bne_iff_ne, ne_eq, ne_eq]
    rw [show (0#64 : BitVec 64) = (0#32).signExtend 64 from rfl, signExtend_inj, signExtend_inj]
    change ¬(u - v = 0#32) ↔ _
    rw [BitVec.sub_eq_iff_eq_add, BitVec.zero_add]

theorem Computes.compare_result {op' : Op} {x y : BitVec 64} {res : List Word × Result}
    (hres : Computes .sub ll x y d b h res) (hop' : op' = TOK_NE ∨ op' = TOK_EQ)
    (hx : ll = false → IsWord x) (hy : ll = false → IsWord y) :
    ∃ res', compare_result op' res = some res' ∧ Computes op' ll x y d b h res' := by
  obtain ⟨ws, result⟩ := res
  obtain ⟨h', hrun, hkeep, hval⟩ := hres
  cases result with
  | cmp o p q => exact absurd hval.1 (by decide)
  | reg q =>
    obtain ⟨-, rfl, hval⟩ := hval
    have hsub := sub_value_bne ll hx hy
    refine ⟨(ws, .cmp op' q 0), rfl, h', hrun, hkeep, ?_, ?_, ?_⟩
    · obtain rfl | rfl := hop' <;> rfl
    · obtain rfl | rfl := hop' <;> rfl
    · change op'.holds _ 0#64 = _
      rw [hval]
      obtain rfl | rfl := hop'
      · exact hsub
      · exact Bool.not_inj hsub


theorem gen_opil_imm_compare_iff {fc : BitVec 32} (h : gen_opil_imm op ll fc = .compare) :
    op = TOK_NE ∨ op = TOK_EQ := by
  cases op with
  | TOK_NE => exact .inl rfl
  | TOK_EQ => exact .inr rfl
  | sub | TOK_LE | TOK_ULE =>
    simp only [gen_opil_imm] at h
    split at h <;> cases h
  | _ => cases h

theorem gen_opil_imm_inverted_xor1 {op' : Op} {fc : BitVec 32}
    (h : gen_opil_imm op ll fc = .inverted op') : op = op'.xor1 := by
  cases op with
  | TOK_UGE | TOK_UGT | TOK_GE | TOK_GT =>
    cases h
    rfl
  | sub | TOK_LE | TOK_ULE =>
    simp only [gen_opil_imm] at h
    split at h <;> cases h
  | _ => cases h

theorem gen_opil_const_computes (hland : op ≠ TOK_LAND) (hlor : op ≠ TOK_LOR) (hd : d ≠ 0#5)
    (hb : b ≠ 0#5) (hab : a ≠ b) (hx : ll = false → IsWord (h.get a)) :
    ∃ res, gen_opil_const op ll t c d a b = some res ∧
      Computes op ll (h.get a) (loaded t c) d b h res := by
  rw [gen_opil_const]
  split
  · rename_i hsmall
    have hy : ll = false → IsWord (loaded t c) := fun _ => by
      rw [loaded_of_small t hsmall]
      exact isWord_signExtend (by decide) _
    split
    · rename_i op' hform
      obtain ⟨-, hop', hland', hlor'⟩ := gen_opil_imm_inverted hform
      obtain ⟨res, hgen, hres⟩ : ∃ res, gen_opil_single op' ll t c d a b = some res ∧
        Computes op' ll (h.get a) (loaded t c) d b h res := gen_opil_single_computes hland' hlor' hd hb hab
      rw [hgen]
      exact hres.invert hop' (gen_opil_imm_inverted_xor1 hform)
    · rename_i hform
      have hop := gen_opil_imm_compare_iff hform
      split
      · obtain ⟨res, hgen, hres⟩ : ∃ res, gen_opil_single .sub ll t c d a b = some res ∧
            Computes .sub ll (h.get a) (loaded t c) d b h res :=
          gen_opil_single_computes (by decide) (by decide) hd hb hab
        rw [hgen]
        exact hres.compare_result hop hx hy
      · rename_i hzero
        rw [not_not] at hzero
        have hcmp : op.isCmp = true := gen_opil_imm_compare hform
        refine ⟨_, rfl, h, rfl, fun _ _ _ => rfl, hcmp, hcmp, ?_⟩
        rw [loaded_of_small t hsmall, hzero]
        rfl
    · exact gen_opil_single_computes hland hlor hd hb hab
  · exact gen_opil_loaded_computes hland hlor hd hb hab

end

/-- With a constant right operand, the code of an operator computes from any left operand what
    the register code computes once the constant is loaded. A 32-bit operand is a word. -/
theorem immediate_form_agrees {op : Op} (hland : op ≠ TOK_LAND) (hlor : op ≠ TOK_LOR) (ll : Bool)
    (t : Scalar) (c : BitVec 64) {d r a b : Reg} (hab : a ≠ b) {h : Hart}
    (hx : ll = false → IsWord (h.get (ireg a))) :
    ∃ res res' h₁ h₂, gen_opil_const op ll t c (ireg d) (ireg a) (ireg b) = some res ∧
      gen_opil_loaded op ll t c (ireg d) (ireg a) (ireg b) = some res' ∧
      run (result_code (ireg r) res).1 h = some h₁ ∧ run (result_code (ireg r) res').1 h = some h₂ ∧
      h₁.get (result_code (ireg r) res).2 = h₂.get (result_code (ireg r) res').2 ∧
      h₂.get (result_code (ireg r) res').2 = opil_value op ll (h.get (ireg a)) (loaded t c) ∧
      ∀ q, q ≠ ireg d → q ≠ ireg r → q ≠ ireg b → h₁.get q = h₂.get q := by
  have hab' : ireg a ≠ ireg b := fun heq => hab (ireg_inj.mp heq)
  obtain ⟨res, hgen, hres⟩ : ∃ res, gen_opil_const op ll t c (ireg d) (ireg a) (ireg b) = some res ∧
      Computes op ll (h.get (ireg a)) (loaded t c) (ireg d) (ireg b) h res :=
    gen_opil_const_computes hland hlor (ireg_ne_zero d) (ireg_ne_zero b) hab' hx
  obtain ⟨res', hgen', hres'⟩ :
      ∃ res, gen_opil_loaded op ll t c (ireg d) (ireg a) (ireg b) = some res ∧
        Computes op ll (h.get (ireg a)) (loaded t c) (ireg d) (ireg b) h res :=
    gen_opil_loaded_computes hland hlor (ireg_ne_zero d) (ireg_ne_zero b) hab'
  obtain ⟨h₁, hrun₁, hkeep₁, hval₁⟩ := hres.result_code (ireg_ne_zero r)
  obtain ⟨h₂, hrun₂, hkeep₂, hval₂⟩ := hres'.result_code (ireg_ne_zero r)
  refine ⟨res, res', h₁, h₂, hgen, hgen', hrun₁, hrun₂, hval₁.trans hval₂.symm, hval₂, ?_⟩
  intro q hqd hqr hqb
  rw [hkeep₁ q hqd hqr hqb, hkeep₂ q hqd hqr hqb]

/-- `5 > -2` on `int`, by the inverted immediate form. -/
theorem immediate_form_agrees_gt :
    ∃ res res' h₁ h₂, gen_opil_const TOK_GT false .int (-2#64) (ireg 0) (ireg 1) (ireg 2) = some res ∧
      gen_opil_loaded TOK_GT false .int (-2#64) (ireg 0) (ireg 1) (ireg 2) = some res' ∧
      run (result_code (ireg 0) res).1 fives = some h₁ ∧
      run (result_code (ireg 0) res').1 fives = some h₂ ∧
      h₁.get (result_code (ireg 0) res).2 = h₂.get (result_code (ireg 0) res').2 ∧
      h₂.get (result_code (ireg 0) res').2 =
        opil_value TOK_GT false (fives.get (ireg 1)) (loaded .int (-2#64)) ∧
      ∀ q, q ≠ ireg 0 → q ≠ ireg 0 → q ≠ ireg 2 → h₁.get q = h₂.get q :=
  immediate_form_agrees (by decide) (by decide) false .int (-2#64) (by decide)
    fun _ => isWord_of_toNat_lt (by decide)

end tcc.riscv64
