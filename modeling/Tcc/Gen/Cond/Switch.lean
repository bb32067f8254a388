import Mathlib.Data.List.Sort
import Tcc.Gen.Cond.Test
import Tcc.Gen.Riscv64.CompareForms

/-! The code that `gcase` generates for the cases of a `switch`. -/

open machine machine.backpatch

namespace tcc.cond

open BType Op

/-- `struct case_t` -/
structure Case where
  v1 : BitVec 64
  v2 : BitVec 64
  sym : Nat

/-- The operands of a comparison with an `int` or `long long` constant are brought to an unsigned type. -/
def cmp_unsigned (t : Scalar) : Bool := t.unsigned && (t.bt == VT_INT || t.bt == VT_LLONG)

/-- The comparison of `gen_op(op)`, where `vtop` has type `t` and a constant has been pushed. -/
def case_op (t : Scalar) (op : Rel) : Rel :=
  ⟨gen_op_unsigned ⟨t.bt, cmp_unsigned t⟩ op.1, by
    obtain ⟨op, hop⟩ := op
    cases cmp_unsigned t <;> cases op <;> first | rfl | exact absurd hop (by decide)⟩

def Rel.le : Rel := ⟨TOK_LE, rfl⟩

def Rel.ge : Rel := ⟨TOK_GE, rfl⟩

/-- `vpushll` or `vpushi` of a bound of a case. -/
def vpush_bound (t : Scalar) (v : BitVec 64) : SValue :=
  if t.bt = VT_LLONG then .const VT_LLONG v else .const VT_INT ((v.setWidth 32).signExtend 64)

def gsym_addr (t : Chain) (a : Nat) (g : Gen) : Gen := { g with code := patch g.code t a }

def gtst_addr (v : SValue) (a : Nat) (g : Gen) : Gen :=
  let (t, g) := gvtst false [] v g
  gsym_addr t a g

/-- The comparison of the value in register `r` with a bound. -/
def case_test (t : Scalar) (r : Nat) (op : Rel) (v : BitVec 64) (g : Gen) : SValue × Gen :=
  gen_op (case_op t op) (.reg t.bt r) (vpush_bound t v) g

/-- The tests of a case: `v1 <= x <= v2`. -/
def case_range (t : Scalar) (r : Nat) (p : Case) (g : Gen) : Chain × Gen :=
  let (v, g) := case_test t r Rel.le p.v2 g
  let (e, g) := gvtst true [] v g
  let (v, g) := case_test t r Rel.ge p.v1 g
  (e, gtst_addr v p.sym g)

/-- The linear scan of `gcase`. -/
def gcase_scan (t : Scalar) (r : Nat) : List Case → Gen → Gen
  | [], g => g
  | p :: base, g =>
    if p.v1 = p.v2 then
      let (v, g) := case_test t r Rel.eq p.v2 g
      gcase_scan t r base (gtst_addr v p.sym g)
    else
      let (e, g) := case_range t r p g
      gcase_scan t r base (gsym e g)

/-- `gcase`, with the value of type `t` in register `r`. -/
def gcase (t : Scalar) (r : Nat) (base : List Case) (bsym : Chain) (g : Gen) : Chain × Gen :=
  if h : 8 < base.length then
    have hmid : base.length / 2 < base.length := by omega
    let (e, g) := case_range t r base[base.length / 2] g
    let (bsym, g) := gcase t r (base.take (base.length / 2)) bsym g
    gcase t r (base.drop (base.length / 2 + 1)) bsym (gsym e g)
  else gjmp bsym (gcase_scan t r base g)
termination_by base.length
decreasing_by
  · rw [List.length_take]
    omega
  · rw [List.length_drop]
    omega

/-- `case_cmpi` and `case_cmpu`, by the type of the value. -/
def case_le (t : Scalar) (p q : Case) : Bool := if t.unsigned then p.v1.ule q.v1 else p.v1.sle q.v1

/-- The test for duplicates, on two neighbours of the sorted cases. -/
def case_apart (t : Scalar) (p q : Case) : Bool := if t.unsigned then p.v2.ult q.v1 else p.v2.slt q.v1

/-- The end of a `switch`: the cases are sorted, and none for the error `duplicate case value`. -/
def gswitch (t : Scalar) (r : Nat) (cases : List Case) (g : Gen) : Option (Chain × Gen) :=
  let base := cases.mergeSort (case_le t)
  if base.IsChain fun p q => case_apart t p q = true then some (gcase t r base [] g) else none

/-- The bound as it is compared. -/
def bound (t : Scalar) (v : BitVec 64) : BitVec 64 :=
  if t.bt = VT_LLONG then v else (v.setWidth 32).signExtend 64

/-- The code of a test: a jump that is taken when the comparison does not come to `inv`. -/
def test_code (t : Scalar) (r : Nat) (op : Rel) (v : BitVec 64) (inv : Bool) (k : Nat) (target : Option Nat) :
    List (Item Instr) :=
  [.instr (.li k (bound t v)), .instr (.branch ((case_op t op).xor inv) r (some k)), .jump target]

/-- The code of the tests of a range. -/
def range_code (t : Scalar) (r : Nat) (p : Case) (k : Nat) (target : Option Nat) : List (Item Instr) :=
  test_code t r Rel.le p.v2 true k target ++ test_code t r Rel.ge p.v1 false (k + 3) (some p.sym)

section emitted

variable {g : Gen}

theorem case_test_eq (t : Scalar) (r : Nat) (op : Rel) (v : BitVec 64) (hg : g.live = true) :
    case_test t r op v g = (.cmp (.rel (case_op t op)) r (some g.ind) [] [],
      { g with code := g.code ++ [.instr (.li g.ind (bound t v))] }) := by
  rw [case_test, vpush_bound, bound]
  split
  · rw [← o_of_live hg]
    rfl
  · rw [← o_of_live hg]
    rfl

theorem gvtst_case_test (t : Scalar) (r : Nat) (op : Rel) (v : BitVec 64) (hg : g.live = true) (inv : Bool) :
    gvtst inv [] (case_test t r op v g).1 (case_test t r op v g).2 =
      ([g.ind + 2], { g with code := g.code ++ test_code t r op v inv g.ind none }) := by
  rw [case_test_eq t r op v hg, gvtst_cmp, jump_if, gjmp_cond]
  have hg₁ : ({ g with code := g.code ++ [.instr (.li g.ind (bound t v))] } : Gen).live = true := hg
  have hg₂ : ({ g with code := g.code ++ [.instr (.li g.ind (bound t v))] ++
      [.instr (.branch ((case_op t op).xor inv) r (some g.ind))] } : Gen).live = true := hg
  cases inv
  all_goals
    simp only [Bool.false_eq_true, if_false, if_true, List.append_nil]
    rw [o_of_live hg₁, gjmp_jump_live hg₂, gsym_nil]
    simp [test_code, Gen.ind]

theorem gtst_addr_case_test (t : Scalar) (r : Nat) (op : Rel) (v : BitVec 64) (hg : g.live = true) (a : Nat) :
    gtst_addr (case_test t r op v g).1 a (case_test t r op v g).2 =
      { g with code := g.code ++ test_code t r op v false g.ind (some a) } := by
  have htest := gvtst_case_test t r op v hg false
  rw [gtst_addr]
  generalize case_test t r op v g = res at htest ⊢
  simp only [htest, gsym_addr, patch, List.foldl_cons, List.foldl_nil]
  congr 1
  rw [test_code, test_code, List.set_append_right _ _ (by simp [Gen.ind])]
  simp [Gen.ind]

theorem live_append (hg : g.live = true) (code : List (Item Instr)) :
    ({ g with code := g.code ++ code } : Gen).live = true := hg

theorem case_range_eq (t : Scalar) (r : Nat) (p : Case) (hg : g.live = true) : case_range t r p g =
    ([g.ind + 2], { g with code := g.code ++ range_code t r p g.ind none }) := by
  have htest := gvtst_case_test t r Rel.le p.v2 hg true
  rw [case_range]
  generalize case_test t r Rel.le p.v2 g = res at htest ⊢
  simp only [htest]
  have hnext := gtst_addr_case_test t r Rel.ge p.v1
    (live_append hg (test_code t r Rel.le p.v2 true g.ind none)) p.sym
  have hind : Gen.ind { g with code := g.code ++ test_code t r Rel.le p.v2 true g.ind none } = g.ind + 3 := by
    simp [Gen.ind, test_code]
  rw [hind] at hnext
  rw [hnext, range_code, List.append_assoc]

end emitted

/-- The value of a bit pattern at the type that the comparisons are made in. -/
def value (t : Scalar) (v : BitVec 64) : Int :=
  if t.bt = VT_LLONG then
    if cmp_unsigned t then v.toNat else v.toInt
  else if cmp_unsigned t then (v.setWidth 32).toNat else (v.setWidth 32).toInt

theorem sext_ult (a b : BitVec 32) : (a.signExtend 64).ult (b.signExtend 64) = a.ult b := by
  rw [BitVec.ult, BitVec.ult, BitVec.toNat_signExtend, BitVec.toNat_signExtend]
  simp only [BitVec.msb_eq_decide, BitVec.toNat_setWidth]
  have ha := a.isLt
  have hb := b.isLt
  rw [decide_eq_decide]
  split <;> split <;> simp_all <;> omega

theorem sext_slt (a b : BitVec 32) : (a.signExtend 64).slt (b.signExtend 64) = a.slt b := by
  rw [BitVec.slt, BitVec.slt, BitVec.toInt_signExtend_of_le (by decide), BitVec.toInt_signExtend_of_le (by decide)]

theorem holds_signExtend (op : Op) (a b : BitVec 32) :
    op.holds (a.signExtend 64) (b.signExtend 64) = op.holds a b := by
  cases op <;> simp [Op.holds, sext_ult, sext_slt, bne, Bool.beq_eq_decide_eq, signExtend_inj]

section compared

variable {t : Scalar} {x : BitVec 64}

/-- A comparison of the register with a bound compares the two at the width of their type. -/
theorem test_iff (hx : bound t x = x) (op : Rel) (c : BitVec 64) : op.1.holds x (bound t c) = true ↔
    if t.bt = VT_LLONG then op.1.Meaning x c else op.1.Meaning (x.setWidth 32) (c.setWidth 32) := by
  rw [bound] at hx ⊢
  split
  · exact Op.holds_iff op.2 x c
  · rename_i hbt
    rw [if_neg hbt] at hx
    rw [← hx, holds_signExtend, setWidth_signExtend]
    exact Op.holds_iff op.2 _ _

theorem le_holds (hx : bound t x = x) (c : BitVec 64) :
    (case_op t Rel.le).1.holds x (bound t c) = true ↔ value t x ≤ value t c := by
  have hop : (case_op t Rel.le).1 = if cmp_unsigned t then TOK_ULE else TOK_LE := by
    change gen_op_unsigned ⟨t.bt, cmp_unsigned t⟩ TOK_LE = _
    cases cmp_unsigned t <;> rfl
  rw [test_iff hx, hop, value, value]
  by_cases hbt : t.bt = VT_LLONG <;> cases cmp_unsigned t
  all_goals simp [hbt, Op.Meaning, -BitVec.toNat_setWidth]

theorem ge_holds (hx : bound t x = x) (c : BitVec 64) :
    (case_op t Rel.ge).1.holds x (bound t c) = true ↔ value t c ≤ value t x := by
  have hop : (case_op t Rel.ge).1 = if cmp_unsigned t then TOK_UGE else TOK_GE := by
    change gen_op_unsigned ⟨t.bt, cmp_unsigned t⟩ TOK_GE = _
    cases cmp_unsigned t <;> rfl
  rw [test_iff hx, hop, value, value]
  by_cases hbt : t.bt = VT_LLONG <;> cases cmp_unsigned t
  all_goals simp [hbt, Op.Meaning, -BitVec.toNat_setWidth]

theorem eq_holds (hx : bound t x = x) (c : BitVec 64) :
    (case_op t Rel.eq).1.holds x (bound t c) = true ↔ value t x = value t c := by
  have hop : (case_op t Rel.eq).1 = TOK_EQ := by
    change gen_op_unsigned ⟨t.bt, cmp_unsigned t⟩ TOK_EQ = _
    cases cmp_unsigned t <;> rfl
  rw [test_iff hx, hop, value, value]
  by_cases hbt : t.bt = VT_LLONG <;> cases cmp_unsigned t
  all_goals simp [hbt, Op.Meaning, BitVec.toInt_inj, BitVec.toNat_inj, -BitVec.toNat_setWidth, -BitVec.toInt_setWidth]

end compared

/-- The value is in the range of the case. -/
def Case.Has (t : Scalar) (x : BitVec 64) (p : Case) : Prop :=
  value t p.v1 ≤ value t x ∧ value t x ≤ value t p.v2

instance (t : Scalar) (x : BitVec 64) : DecidablePred (Case.Has t x) := fun p =>
  inferInstanceAs (Decidable (value t p.v1 ≤ value t x ∧ value t x ≤ value t p.v2))

/-- From `pc`, a code that finds the value `x` in register `r` comes to `pc'`, with the registers
    below `n` as they were. -/
def Leads (C : Nat → Option (Item Instr)) (n r : Nat) (x : BitVec 64) (pc pc' : Nat) : Prop :=
  ∀ env regs trace, regs r = x → ∃ regs', (∀ i < n, regs' i = regs i) ∧
    Reach env C ⟨pc, regs, trace⟩ ⟨pc', regs', trace⟩

section leads

variable {C : Nat → Option (Item Instr)} {n r k pc pc₁ pc₂ L : Nat} {x : BitVec 64}

theorem Leads.refl : Leads C n r x pc pc := fun _ regs _ _ =>
  ⟨regs, fun _ _ => rfl, Relation.ReflTransGen.refl⟩

theorem Leads.trans (h₁ : Leads C n r x pc pc₁) (hr : r < n) (h₂ : Leads C n r x pc₁ pc₂) :
    Leads C n r x pc pc₂ := by
  intro env regs trace hx
  obtain ⟨regs₁, hkeep₁, hreach₁⟩ := h₁ env regs trace hx
  obtain ⟨regs₂, hkeep₂, hreach₂⟩ := h₂ env regs₁ trace ((hkeep₁ r hr).trans hx)
  exact ⟨regs₂, fun i hi => (hkeep₂ i hi).trans (hkeep₁ i hi), hreach₁.trans hreach₂⟩

theorem Leads.jump (h : C pc = some (.jump (some L))) : Leads C n r x pc L := fun _ regs trace _ =>
  ⟨regs, fun _ _ => rfl, step_jump (s := ⟨pc, regs, trace⟩) h⟩

/-- The code of a test, where its jump has the target `L`. -/
theorem leads_test (t : Scalar) (op : Rel) (v : BitVec 64) (inv : Bool) (hr : r < n) (hn : n ≤ k)
    (hli : C k = some (.instr (.li k (bound t v))))
    (hbranch : C (k + 1) = some (.instr (.branch ((case_op t op).xor inv) r (some k))))
    (hjump : C (k + 2) = some (.jump (some L))) :
    Leads C n r x k (if (case_op t op).1.holds x (bound t v) = !inv then L else k + 3) := by
  intro env regs trace hx
  have hfirst : Reach env C ⟨k, regs, trace⟩ _ := step_instr hli
  have hsecond : Reach env C ⟨k + 1, Function.update regs k (bound t v), trace⟩ _ := step_instr hbranch
  have hthird : Reach env C ⟨k + 2, Function.update regs k (bound t v), trace⟩ _ := step_jump hjump
  refine ⟨Function.update regs k (bound t v), fun i hi => Function.update_of_ne (by omega) _ _, hfirst.trans ?_⟩
  rw [Instr.exec, Rel.holds_xor] at hsecond
  simp only [read, Function.update_self, Function.update_of_ne (show r ≠ k by omega), hx] at hsecond
  cases hholds : (case_op t op).1.holds x (bound t v) <;> cases inv <;> rw [hholds] at hsecond
  · exact hsecond
  · exact hsecond.trans hthird
  · exact hsecond.trans hthird
  · exact hsecond

end leads

section run

variable {C : Nat → Option (Item Instr)} {n r : Nat} {t : Scalar} {x : BitVec 64} {g : Gen}

theorem instr_at {seg : List (Item Instr)} (hC : Completes C (g.code ++ seg)) {j : Nat} {i : Instr}
    (hj : seg[j]? = some (.instr i)) : C (g.ind + j) = some (.instr i) :=
  hC.instr (by rw [List.getElem?_append_right (by simp [Gen.ind])]; simpa [Gen.ind] using hj)

theorem jump_at {seg : List (Item Instr)} (hC : Completes C (g.code ++ seg)) {j a : Nat}
    (hj : seg[j]? = some (.jump (some a))) : C (g.ind + j) = some (.jump (some a)) :=
  hC.jump (by rw [List.getElem?_append_right (by simp [Gen.ind])]; simpa [Gen.ind] using hj)

/-- The code of the tests of a range, where the first jump has the target `e`. -/
theorem leads_range (hx : bound t x = x) (hr : r < n) (hn : n ≤ g.ind) (p : Case) {target : Option Nat} {e : Nat}
    (hC : Completes C (g.code ++ range_code t r p g.ind target)) (he : C (g.ind + 2) = some (.jump (some e))) :
    Leads C n r x g.ind (if value t x ≤ value t p.v2 then
      if value t p.v1 ≤ value t x then p.sym else g.ind + 6 else e) := by
  have hupper := leads_test (x := x) t Rel.le p.v2 true hr hn (instr_at hC (j := 0) rfl) (instr_at hC (j := 1) rfl) he
  have hlower := leads_test (x := x) t Rel.ge p.v1 false hr (by omega : n ≤ g.ind + 3)
    (instr_at hC (j := 3) rfl) (instr_at hC (j := 4) rfl) (jump_at hC (j := 5) rfl)
  simp only [Bool.not_false, ge_holds hx] at hlower
  by_cases hle : value t x ≤ value t p.v2
  · rw [(le_holds hx p.v2).mpr hle] at hupper
    rw [if_pos hle]
    exact hupper.trans hr hlower
  · rw [Bool.eq_false_iff.mpr fun h => hle ((le_holds hx p.v2).mp h)] at hupper
    rwa [if_neg hle]

/-- The code of the test for a case of one value. -/
theorem leads_single (hx : bound t x = x) (hr : r < n) (hn : n ≤ g.ind) (p : Case)
    (hC : Completes C (g.code ++ test_code t r Rel.eq p.v2 false g.ind (some p.sym))) :
    Leads C n r x g.ind (if value t x = value t p.v2 then p.sym else g.ind + 3) := by
  have htest := leads_test (x := x) t Rel.eq p.v2 false hr hn
    (instr_at hC (j := 0) rfl) (instr_at hC (j := 1) rfl) (jump_at hC (j := 2) rfl)
  simpa only [Bool.not_false, eq_holds hx] using htest

end run

section pending

variable {n : Nat} {t : Scalar} {r : Nat} {code : List (Item Instr)} {rest : Chain}

theorem pending_test (op : Rel) (v : BitVec 64) (inv : Bool) (k a : Nat) (h : PendingFrom n code rest) :
    PendingFrom n (code ++ test_code t r op v inv k (some a)) rest := by
  have hcode := ((h.append_instr (.li k (bound t v))).append_instr
    (.branch ((case_op t op).xor inv) r (some k))).append_jump a
  simpa [test_code] using hcode

theorem pending_range (p : Case) (h : PendingFrom n code rest) (hn : n ≤ code.length) :
    PendingFrom n (code ++ range_code t r p code.length none) ((code.length + 2) :: rest) := by
  have hcode := ((h.append_instr (.li code.length (bound t p.v2))).append_instr
    (.branch ((case_op t Rel.le).xor true) r (some code.length))).append_pending (hn.trans (by simp))
  have hupper : PendingFrom n (code ++ test_code t r Rel.le p.v2 true code.length none)
      ((code.length + 2) :: rest) := by
    simpa [test_code] using hcode
  have hnext := pending_test (t := t) (r := r) Rel.ge p.v1 false (code.length + 3) p.sym hupper
  simpa [range_code] using hnext

end pending

/-- The label of the case that is taken. -/
def taken (t : Scalar) (base : List Case) (x : BitVec 64) : Option Nat := (base.find? (·.Has t x)).map (·.sym)

theorem taken_cons (t : Scalar) (p : Case) (base : List Case) (x : BitVec 64) :
    taken t (p :: base) x = if p.Has t x then some p.sym else taken t base x := by
  rw [taken, List.find?_cons]
  split <;> simp_all [taken]

section scan

variable {n r : Nat} {t : Scalar} {g : Gen} {rest : Chain}

theorem case_range_spec (hr : r < n) (p : Case) (hg : g.live = true) (hn : n ≤ g.ind)
    (hpending : PendingFrom n g.code rest) :
    ∃ g₁, case_range t r p g = ([g.ind + 2], g₁) ∧ g₁.live = true ∧ g₁.ind = g.ind + 6 ∧ Emits n g g₁ ∧
      PendingFrom n g₁.code ([g.ind + 2] ++ rest) ∧
      ∀ C, Completes C g₁.code → ∀ e, C (g.ind + 2) = some (.jump (some e)) → ∀ x, bound t x = x →
        Leads C n r x g.ind (if value t x ≤ value t p.v2 then
          if value t p.v1 ≤ value t x then p.sym else g₁.ind else e) := by
  have hind : Gen.ind { g with code := g.code ++ range_code t r p g.ind none } = g.ind + 6 := by
    simp [Gen.ind, range_code, test_code]
  refine ⟨_, case_range_eq t r p hg, hg, hind, ⟨Grows.append hn _, Completes.append, rfl⟩, pending_range p hpending hn,
    fun C hC e he x hx => ?_⟩
  rw [hind]
  exact leads_range hx hr hn p hC he

theorem gsym_live {u : Chain} (hu : u ≠ []) (hg : g.nocode = 0) : (gsym u g).live = true := by
  refine live_iff.mpr ⟨(nocode_gsym u g).trans hg, ?_⟩
  rw [off_gsym, List.isEmpty_eq_false_iff.mpr hu, Bool.false_and]

theorem gcase_scan_spec (hr : r < n) (base : List Case) (hg : g.live = true) (hn : n ≤ g.ind)
    (hpending : PendingFrom n g.code rest) :
    (gcase_scan t r base g).live = true ∧ PendingFrom n (gcase_scan t r base g).code rest ∧
      Emits n g (gcase_scan t r base g) ∧
      ∀ C, Completes C (gcase_scan t r base g).code → ∀ x, bound t x = x →
        Leads C n r x g.ind ((taken t base x).getD (gcase_scan t r base g).ind) := by
  induction base generalizing g with
  | nil => exact ⟨hg, hpending, Emits.refl n g, fun C _ x _ => Leads.refl⟩
  | cons p base ih =>
    rw [gcase_scan]
    split
    · rename_i heq
      have hcode := gtst_addr_case_test t r Rel.eq p.v2 hg p.sym
      generalize case_test t r Rel.eq p.v2 g = res at hcode ⊢
      obtain ⟨g₁, hg₁⟩ : ∃ g₁ : Gen, g₁ = { g with
          code := g.code ++ test_code t r Rel.eq p.v2 false g.ind (some p.sym) } := ⟨_, rfl⟩
      have hind₁ : g₁.ind = g.ind + 3 := by simp [hg₁, Gen.ind, test_code]
      simp only [hcode, ← hg₁]
      obtain ⟨hlive, hpending', hemits, hleads⟩ := ih (g := g₁) (by rw [hg₁]; exact hg) (by omega)
        (by rw [hg₁]; exact pending_test _ _ _ _ _ hpending)
      have hemits₁ : Emits n g g₁ := by
        rw [hg₁]
        exact ⟨Grows.append hn _, Completes.append, rfl⟩
      refine ⟨hlive, hpending', hemits₁.trans hemits, fun C hC x hx => ?_⟩
      have hfirst := leads_single (C := C) hx hr hn p (by have := hemits.completes hC; rwa [hg₁] at this)
      have hhas : p.Has t x ↔ value t x = value t p.v2 := by
        rw [Case.Has, heq]
        exact ⟨fun h => le_antisymm h.2 h.1, fun h => ⟨h.ge, h.le⟩⟩
      rw [taken_cons]
      by_cases hval : value t x = value t p.v2
      · rw [if_pos hval] at hfirst
        rw [if_pos (hhas.mpr hval)]
        exact hfirst
      · rw [if_neg hval, ← hind₁] at hfirst
        rw [if_neg fun h => hval (hhas.mp h)]
        exact hfirst.trans hr (hleads C hC x hx)
    · obtain ⟨g₁, hrange, hlive₁, hind₁, hemits₁, hpending₁, hleads₁⟩ := case_range_spec hr p hg hn hpending
      rw [hrange]
      obtain ⟨hemits₂, hlabel⟩ := gsym_spec (u := [g.ind + 2]) (g := g₁) (n := n)
        fun q hq => pending_of_mem hpending₁ (List.mem_append_left _ hq)
      obtain ⟨hlive, hpending', hemits, hleads⟩ := ih (g := gsym [g.ind + 2] g₁)
        (gsym_live (by simp) (live_iff.mp hlive₁).1) (by rw [ind_gsym]; omega) (pending_gsym hpending₁)
      refine ⟨hlive, hpending', (hemits₁.trans hemits₂).trans hemits, fun C hC x hx => ?_⟩
      have hC₂ := hemits.completes hC
      have hfirst := hleads₁ C (hemits₂.completes hC₂) g₁.ind (hlabel hC₂ _ (List.mem_singleton_self _)) x hx
      have hnext := hleads C hC x hx
      rw [ind_gsym] at hnext
      rw [taken_cons]
      by_cases hhas : p.Has t x
      · rw [if_pos hhas.2, if_pos hhas.1] at hfirst
        rw [if_pos hhas]
        exact hfirst
      · have hmiss : (if value t x ≤ value t p.v2 then if value t p.v1 ≤ value t x then p.sym else g₁.ind
            else g₁.ind) = g₁.ind := by
          rw [← ite_and, if_neg fun h => hhas ⟨h.2, h.1⟩]
        rw [hmiss] at hfirst
        rw [if_neg hhas]
        exact hfirst.trans hr hnext

end scan

/-- The ranges are not empty. -/
def Ranges (f : BitVec 64 → Int) (cases : List Case) : Prop := ∀ p ∈ cases, f p.v1 ≤ f p.v2

/-- The cases are sorted, and no two of them have a value in common. -/
def Separated (t : Scalar) (base : List Case) : Prop :=
  base.Pairwise (fun p q => value t p.v2 < value t q.v1) ∧ Ranges (value t) base

section split

variable {t : Scalar} {base low high : List Case} {p : Case} {x : BitVec 64}

theorem taken_append : taken t (low ++ high) x = (taken t low x).or (taken t high x) := by
  rw [taken, List.find?_append, taken, taken]
  cases low.find? (·.Has t x) <;> rfl

theorem taken_eq_none (h : ∀ p ∈ base, ¬ p.Has t x) : taken t base x = none := by
  rw [taken, List.find?_eq_none.mpr fun p hp => by simpa using h p hp, Option.map_none]

theorem taken_above (hsep : Separated t (low ++ p :: high)) (hx : ¬ value t x ≤ value t p.v2) :
    taken t (low ++ p :: high) x = taken t high x := by
  obtain ⟨hsorted, hrange⟩ := hsep
  have hlow (q : Case) (hq : q ∈ low) : ¬ q.Has t x := by
    have hqp := (List.pairwise_append.mp hsorted).2.2 q hq p List.mem_cons_self
    have hp := hrange p (by simp)
    rintro ⟨-, hle⟩
    omega
  rw [taken_append, taken_eq_none hlow, Option.none_or, taken_cons, if_neg fun h => hx h.2]

theorem taken_mid (hsep : Separated t (low ++ p :: high)) (hx : p.Has t x) :
    taken t (low ++ p :: high) x = some p.sym := by
  have hlow (q : Case) (hq : q ∈ low) : ¬ q.Has t x := by
    have hqp := (List.pairwise_append.mp hsep.1).2.2 q hq p List.mem_cons_self
    have hp := hx.1
    rintro ⟨-, hle⟩
    omega
  rw [taken_append, taken_eq_none hlow, Option.none_or, taken_cons, if_pos hx]

theorem taken_below (hsep : Separated t (low ++ p :: high)) (hx : ¬ value t p.v1 ≤ value t x) :
    taken t (low ++ p :: high) x = taken t low x := by
  obtain ⟨hsorted, hrange⟩ := hsep
  have hhigh (q : Case) (hq : q ∈ p :: high) : ¬ q.Has t x := by
    rintro ⟨hle, -⟩
    obtain rfl | hq := List.mem_cons.mp hq
    · exact hx hle
    · have hpq := (List.pairwise_cons.mp (List.pairwise_append.mp hsorted).2.1).1 q hq
      have hp := hrange p (by simp)
      omega
  rw [taken_append, taken_eq_none hhigh, Option.or_none]

theorem Separated.lower (hsep : Separated t (low ++ p :: high)) : Separated t low :=
  ⟨(List.pairwise_append.mp hsep.1).1, fun q hq => hsep.2 q (by simp [hq])⟩

theorem Separated.upper (hsep : Separated t (low ++ p :: high)) : Separated t high :=
  ⟨(List.pairwise_cons.mp (List.pairwise_append.mp hsep.1).2.1).2, fun q hq => hsep.2 q (by simp [hq])⟩

end split

/-- More than eight cases are split at the one in the middle. -/
theorem gcase_long {base : List Case} (t : Scalar) (r : Nat) (bsym : Chain) (g : Gen) (h : 8 < base.length) :
    ∃ low p high, base = low ++ p :: high ∧ low.length < base.length ∧ high.length < base.length ∧
      gcase t r base bsym g =
        let (e, g) := case_range t r p g
        let (bsym, g) := gcase t r low bsym g
        gcase t r high bsym (gsym e g) := by
  refine ⟨base.take (base.length / 2), base[base.length / 2], base.drop (base.length / 2 + 1), ?_, ?_, ?_, ?_⟩
  · rw [← List.drop_eq_getElem_cons, List.take_append_drop]
  · rw [List.length_take]
    omega
  · rw [List.length_drop]
    omega
  · rw [gcase, dif_pos h]

/-- A code that completes the one of `gcase` leads to the label of the case that has the value, and else
    where the chain of the default leads. -/
theorem gcase_spec {n r : Nat} {t : Scalar} {g : Gen} {rest : Chain} (hr : r < n) (base : List Case) (bsym : Chain)
    (hg : g.live = true) (hn : n ≤ g.ind) (hsep : Separated t base)
    (hpending : PendingFrom n g.code (bsym ++ rest)) :
    PendingFrom n (gcase t r base bsym g).2.code ((gcase t r base bsym g).1 ++ rest) ∧
      Emits n g (gcase t r base bsym g).2 ∧ (∀ p ∈ bsym, p ∈ (gcase t r base bsym g).1) ∧
      ∀ C, Completes C (gcase t r base bsym g).2.code → ∀ L,
        (∀ p ∈ (gcase t r base bsym g).1, C p = some (.jump (some L))) → ∀ x, bound t x = x →
          Leads C n r x g.ind ((taken t base x).getD L) := by
  induction hlen : base.length using Nat.strong_induction_on generalizing base bsym g rest with
  | _ len ih =>
    by_cases hlong : 8 < base.length
    · obtain ⟨low, p, high, rfl, hlowlen, hhighlen, heq⟩ := gcase_long t r bsym g hlong
      obtain ⟨g₁, hrange, hlive₁, hind₁, hemits₁, hpending₁, hleads₁⟩ := case_range_spec hr p hg hn hpending
      -- the jump above the range is pending while the lower half is generated
      have hpending₁' : PendingFrom n g₁.code (bsym ++ ([g.ind + 2] ++ rest)) :=
        hpending₁.perm (List.perm_append_comm_assoc _ _ _)
      obtain ⟨hpending₂, hemits₂, hsub₂, hleads₂⟩ :=
        ih low.length (hlen ▸ hlowlen) low bsym hlive₁ (by omega) hsep.lower hpending₁' rfl
      obtain ⟨⟨bsym₂, g₂⟩, hres⟩ : ∃ res, gcase t r low bsym g₁ = res := ⟨_, rfl⟩
      rw [hres] at hpending₂ hemits₂ hsub₂ hleads₂
      have hind₂ : g₁.ind ≤ g₂.ind := hemits₂.ind_le
      rw [hrange] at heq
      dsimp only at heq
      rw [heq, hres]
      have hpending₂' : PendingFrom n g₂.code ([g.ind + 2] ++ (bsym₂ ++ rest)) :=
        hpending₂.perm (List.perm_append_comm_assoc _ _ _)
      obtain ⟨hemits₃, hlabel⟩ := gsym_spec (u := [g.ind + 2]) (g := g₂) (n := n)
        fun q hq => pending_of_mem hpending₂' (List.mem_append_left _ hq)
      have hlive₃ : (gsym [g.ind + 2] g₂).live = true :=
        gsym_live (by simp) (hemits₂.nocode.trans (live_iff.mp hlive₁).1)
      obtain ⟨hpending₄, hemits₄, hsub₄, hleads₄⟩ := ih high.length (hlen ▸ hhighlen) high bsym₂ hlive₃
        (by rw [ind_gsym]; omega) hsep.upper (pending_gsym hpending₂') rfl
      refine ⟨hpending₄, ((hemits₁.trans hemits₂).trans hemits₃).trans hemits₄,
        fun q hq => hsub₄ q (hsub₂ q hq), fun C hC L hL x hx => ?_⟩
      have hC₃ := hemits₄.completes hC
      have hC₂ := hemits₃.completes hC₃
      have hfirst := hleads₁ C (hemits₂.completes hC₂) g₂.ind (hlabel hC₃ _ (List.mem_singleton_self _)) x hx
      by_cases habove : value t x ≤ value t p.v2
      · rw [if_pos habove] at hfirst
        by_cases hbelow : value t p.v1 ≤ value t x
        · rw [if_pos hbelow] at hfirst
          rwa [taken_mid hsep ⟨hbelow, habove⟩]
        · rw [if_neg hbelow] at hfirst
          rw [taken_below hsep hbelow]
          exact hfirst.trans hr (hleads₂ C hC₂ L (fun q hq => hL q (hsub₄ q hq)) x hx)
      · rw [if_neg habove] at hfirst
        rw [taken_above hsep habove]
        have hnext := hleads₄ C hC L hL x hx
        rw [ind_gsym] at hnext
        exact hfirst.trans hr hnext
    · obtain ⟨hlive, hpending', hemits, hleads⟩ := gcase_scan_spec hr base hg hn hpending
      obtain ⟨g₁, hg₁⟩ : ∃ g₁, g₁ = gcase_scan t r base g := ⟨_, rfl⟩
      rw [← hg₁] at hlive hpending' hemits hleads
      rw [gcase, dif_neg hlong, ← hg₁, gjmp, gjmp_jump_live hlive]
      have hn₁ := hn.trans hemits.ind_le
      have hjump : Emits n g₁ (Gen.code_off { g₁ with code := g₁.code ++ [.jump none] }) :=
        ⟨Grows.append hn₁ _, Completes.append, rfl⟩
      refine ⟨hpending'.append_pending hn₁, hemits.trans hjump, fun p hp => List.mem_cons_of_mem _ hp,
        fun C hC L hL x hx => ?_⟩
      have hfirst := hleads C (hjump.completes hC) x hx
      cases htaken : taken t base x with
      | none =>
        rw [htaken] at hfirst
        exact hfirst.trans hr (Leads.jump (hL _ List.mem_cons_self))
      | some a =>
        rwa [htaken] at hfirst

/-- A constant in the order that `gswitch` sorts by. -/
def key (t : Scalar) (v : BitVec 64) : Int := if t.unsigned then v.toNat else v.toInt

theorem case_le_iff {t : Scalar} {p q : Case} : case_le t p q = true ↔ key t p.v1 ≤ key t q.v1 := by
  rw [case_le, key, key]
  split
  · rw [BitVec.ule_iff_le, BitVec.le_def, Int.ofNat_le]
  · exact BitVec.sle_iff_toInt_le

theorem case_apart_iff {t : Scalar} {p q : Case} : case_apart t p q = true ↔ key t p.v2 < key t q.v1 := by
  rw [case_apart, key, key]
  split
  · rw [BitVec.ult_iff_lt, BitVec.lt_def, Int.ofNat_lt]
  · exact BitVec.slt_iff_toInt_lt

theorem pairwise_of_chain {f : BitVec 64 → Int} {base : List Case} (hrange : Ranges f base)
    (hchain : base.IsChain fun p q => f p.v2 < f q.v1) : base.Pairwise fun p q => f p.v2 < f q.v1 := by
  have hlt : base.IsChain fun p q => f p.v2 < f q.v1 ∧ f q.v1 ≤ f q.v2 :=
    hchain.imp_of_mem_imp fun p q hp hq hpq => ⟨hpq, hrange q hq⟩
  have : Trans (fun p q : Case => f p.v2 < f q.v1 ∧ f q.v1 ≤ f q.v2)
      (fun p q : Case => f p.v2 < f q.v1 ∧ f q.v1 ≤ f q.v2)
      (fun p q : Case => f p.v2 < f q.v1 ∧ f q.v1 ≤ f q.v2) := ⟨fun h₁ h₂ => ⟨by omega, h₂.2⟩⟩
  exact (List.isChain_iff_pairwise.mp hlt).imp fun h => h.1

/-- The order of the sorted constants is the one of the comparisons. -/
structure Ordered (t : Scalar) (cases : List Case) : Prop where
  ranges : Ranges (value t) cases
  below : ∀ p ∈ cases, ∀ q ∈ cases, key t p.v2 < key t q.v1 → value t p.v2 < value t q.v1

/-- Constants that are values of the type are ordered so. -/
theorem Ordered.of_fits {t : Scalar} {cases : List Case} (hranges : Ranges (value t) cases)
    (hfits : ∀ p ∈ cases, value t p.v1 = key t p.v1 ∧ value t p.v2 = key t p.v2) : Ordered t cases := by
  refine ⟨hranges, fun p hp q hq hlt => ?_⟩
  rwa [(hfits p hp).2, (hfits q hq).1]

/-- The code of a `switch` that is accepted leads to the label of the only case that has the value, and to
    the default when there is none. -/
theorem gswitch_dispatches {n r : Nat} {t : Scalar} {g g' : Gen} {cases : List Case} {bsym : Chain}
    (hr : r < n) (hn : n ≤ g.ind) (hg : g.live = true) (hpending : PendingFrom n g.code [])
    (hord : Ordered t cases) (h : gswitch t r cases g = some (bsym, g')) :
    Emits n g g' ∧ PendingFrom n g'.code bsym ∧
      ∀ C, Completes C g'.code → ∀ L, (∀ p ∈ bsym, C p = some (.jump (some L))) → ∀ x, bound t x = x →
        (∀ p ∈ cases, p.Has t x → Leads C n r x g.ind p.sym) ∧
          ((∀ p ∈ cases, ¬ p.Has t x) → Leads C n r x g.ind L) := by
  rw [gswitch] at h
  split at h
  · rename_i hchain
    have hperm := List.mergeSort_perm cases (case_le t)
    generalize cases.mergeSort (case_le t) = base at h hchain hperm
    have hranges : Ranges (value t) base := fun p hp => hord.ranges p (hperm.mem_iff.mp hp)
    have hchain' : base.IsChain fun p q => value t p.v2 < value t q.v1 :=
      hchain.imp_of_mem_imp fun p q hp hq hpq =>
        hord.below p (hperm.mem_iff.mp hp) q (hperm.mem_iff.mp hq) (case_apart_iff.mp hpq)
    have hsep : Separated t base := ⟨pairwise_of_chain hranges hchain', hranges⟩
    have hspec := gcase_spec hr base [] hg hn hsep hpending
    rw [Option.some.inj h, List.append_nil] at hspec
    obtain ⟨hpending', hemits, -, hleads⟩ := hspec
    refine ⟨hemits, hpending', fun C hC L hL x hx => ?_⟩
    have hlead := hleads C hC L hL x hx
    constructor
    · intro p hp hhas
      obtain ⟨low, high, rfl⟩ := List.append_of_mem (hperm.mem_iff.mpr hp)
      rwa [taken_mid hsep hhas] at hlead
    · intro hnone
      rwa [taken_eq_none fun p hp => hnone p (hperm.mem_iff.mp hp)] at hlead
  · cases h

theorem gswitch_dispatches_ranges : ∃ bsym g',
    gswitch ⟨VT_INT, false⟩ 0 [⟨-1, 1, 200⟩, ⟨5, 7, 100⟩] ⟨[.instr (.operand 0 0)], 0, false⟩ = some (bsym, g') ∧
      ∃ C, Completes C g'.code ∧ Leads C 1 0 6 1 100 ∧ Leads C 1 0 (-1) 1 200 ∧ Leads C 1 0 3 1 300 := by
  have haccepts : (gswitch ⟨VT_INT, false⟩ 0 [⟨-1, 1, 200⟩, ⟨5, 7, 100⟩]
      ⟨[.instr (.operand 0 0)], 0, false⟩).isSome = true := by
    rw [gswitch, List.mergeSort_of_pairwise (by simp [case_le, BitVec.sle]),
      if_pos (by simp [case_apart, BitVec.slt])]
    rfl
  obtain ⟨⟨bsym, g'⟩, h⟩ := Option.isSome_iff_exists.mp haccepts
  obtain ⟨-, hpending, hleads⟩ := gswitch_dispatches (n := 1) (by decide) (by decide) rfl
    (PendingFrom.nil [.instr (Instr.operand 0 0)])
    (Ordered.of_fits (by simp [Ranges, value, cmp_unsigned]) (by simp [value, key, cmp_unsigned])) h
  obtain ⟨C, hC, hjump⟩ := exists_completes g'.code 300
  have hL (p : Nat) (hp : p ∈ bsym) : C p = some (.jump (some 300)) := hjump p (pending_of_mem hpending hp).2
  refine ⟨bsym, g', h, C, hC, ?_, ?_, ?_⟩
  · exact (hleads C hC 300 hL 6 rfl).1 ⟨5, 7, 100⟩ (by simp) (by decide)
  · exact (hleads C hC 300 hL (-1) rfl).1 ⟨-1, 1, 200⟩ (by simp) (by decide)
  · exact (hleads C hC 300 hL 3 rfl).2 (by decide)

end tcc.cond
