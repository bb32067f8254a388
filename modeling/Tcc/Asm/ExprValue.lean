import Mathlib.Data.BitVec
import Tcc.Asm.Expr

/-! What the expressions of the assembler mean, wherever the sections are placed. -/

open machine.decimal

namespace tcc.asm.expr

/-- The addresses of the sections and of the symbols. -/
structure Placement where
  base : Nat → BitVec 64
  addr : Nat → BitVec 64
  base_abs : base SHN_ABS = 0

namespace Placement

/-- A symbol that is defined in a section is placed with it. -/
def Places (P : Placement) (st : Labels) : Prop :=
  ∀ k esym, st.elfsym k = some esym → esym.st_shndx ≠ 0 → esym.st_shndx ≠ SHN_COMMON →
    P.addr k = P.base esym.st_shndx + esym.st_value

/-- The address of the current position. -/
def here (P : Placement) (c : Here) : BitVec 64 := P.base c.sh_num + ulong c.ind

end Placement

/-- What a result of `asm_expr` stands for, with the addresses of the symbols and of the current position. -/
def PcrelValue.final (r : PcrelValue) (addr : Nat → BitVec 64) (here : BitVec 64) : BitVec 64 :=
  r.v + r.sym.elim 0 addr - if r.pcrel then here + 4 else 0

def Placement.value (P : Placement) (c : Here) (r : PcrelValue) : BitVec 64 := r.final P.addr (P.here c)

/-- The number that a text is, of any size. -/
def literal (p : List Byte) : Nat :=
  if p.head? = some 48#8 then
    if (p.tail.head? = some 120#8 ∨ p.tail.head? = some 88#8) ∧ digits_at 16 p.tail.tail ≠ [] then
      number 16 p.tail.tail
    else number 8 p
  else number 10 p

/-- An operation on 64-bit numbers with a sign. -/
def Op.value (op : Op) (a b : BitVec 64) : Option (BitVec 64) :=
  match op with
  | mul => some (a * b)
  | div => if b = 0 then none else some (a.sdiv b)
  | mod => if b = 0 then none else some (a.srem b)
  | shl => some (a <<< b)
  | sar => some (a.sshiftRight' b)
  | and => some (a &&& b)
  | or => some (a ||| b)
  | xor => some (a ^^^ b)
  | add => some (a + b)
  | sub => some (a - b)
  | eq => some (if a = b then -1 else 0)
  | ne => some (if a ≠ b then -1 else 0)
  | lt => some (if a.toInt < b.toInt then -1 else 0)
  | ge => some (if a.toInt ≥ b.toInt then -1 else 0)
  | le => some (if a.toInt ≤ b.toInt then -1 else 0)
  | gt => some (if a.toInt > b.toInt then -1 else 0)

/-- The value of an expression. The names stand for the symbols that they have when they are read, and
    may enter symbols. -/
def AsmExpr.value (c : Here) (P : Placement) : AsmExpr → Labels → Option (BitVec 64 × Labels)
  | number p, st =>
    match st.asm_number p with
    | .ok (⟨_, some k⟩, st) => some (P.addr k, st)
    | .ok (⟨_, none⟩, st) => some (BitVec.ofNat 64 (literal p), st)
    | .error _ => none
  | char i, st => some (i, st)
  | label name, st =>
    let (sym, st) := get_asm_sym st name
    some (P.addr sym, st)
  | dot, st =>
    let (_, st) := asm_section_sym c st
    some (P.here c, st)
  | plus e, st => e.value c P st
  | minus e, st => do
    let (v, st) ← e.value c P st
    return (-v, st)
  | tilde e, st => do
    let (v, st) ← e.value c P st
    return (~~~v, st)
  | binary op e1 e2, st => do
    let (a, st) ← e1.value c P st
    let (b, st) ← e2.value c P st
    let v ← op.value a b
    return (v, st)

/-- The result is an error, or the value of the expression wherever the sections are placed. -/
def Meets (c : Here) (st : Labels) (e : AsmExpr) (ts rest : List Tok) : Prop :=
  match asm_expr c st (ts ++ rest) with
  | .ok (r, st', rest') => rest' = rest ∧ ∀ P, Placement.Places P st' →
      e.value c P st = some (P.value c r, st')
  | .error (.error _) => True
  | .error .crash => False

/-- Two constants that an operation takes: neither is relative to the place, a division is one of numbers
    that are not negative, and a shift is by less than 64. -/
def ConstantStep (op : Op) (pe e2 : PcrelValue) : Prop :=
  pe.pcrel = false ∧ e2.pcrel = false ∧
    match op with
    | .div | .mod => e2.v ≠ 0 → pe.v.msb = false ∧ e2.v.msb = false
    | .shl => e2.v < 64
    | .sar => pe.v.msb = false ∧ e2.v < 64
    | _ => True

/-- A symbol that is subtracted from another value has an entry in the symbol table. It is not in the
    common section, and only once is one of the current section subtracted. -/
def SubSymStep (c : Here) (st : Labels) (pe e2 : PcrelValue) (sym2 : Nat) : Prop :=
  ∃ esym2, st.elfsym sym2 = some esym2 ∧
    ((same_section (pe.sym.bind st.elfsym) esym2).isSome = true →
      e2.pcrel = false ∧ esym2.st_shndx ≠ SHN_COMMON) ∧
    (same_section (pe.sym.bind st.elfsym) esym2 = none → esym2.st_shndx = c.sh_num →
      e2.pcrel = false ∧ pe.pcrel = false)

/-- The operands of an operation whose result stands for the right value, unless it is an error. -/
def StepSafe (c : Here) (st : Labels) (op : Op) (pe e2 : PcrelValue) : Prop :=
  match op with
  | .add => pe.sym = none ∨ e2.sym = none → e2.pcrel = false
  | .sub => (e2.sym = none ∨ e2.sym = pe.sym → e2.pcrel = false) ∧
      ∀ sym2, e2.sym = some sym2 → pe.sym ≠ some sym2 → SubSymStep c st pe e2 sym2
  | op => pe.sym = none → e2.sym = none → ConstantStep op pe e2

/-- All the operations of an expression are such, its numbers have 64 bits, and the name that a `.` looks
    up is that of the section. -/
def AsmExpr.Safe (c : Here) : AsmExpr → Labels → Prop
  | number p, _ => (strtoull p).2 = [] → literal p < 2 ^ 64
  | char _, _ => True
  | label _, _ => True
  | dot, st => ∀ k, st.asm_label_find (section_label c) = some k → st.elfsym k = some ⟨c.sh_num, 0⟩
  | plus e, st => e.Safe c st
  | minus e, st | tilde e, st =>
    e.Safe c st ∧ ∀ r st', e.eval c st = .ok (r, st') → r.sym = none → r.pcrel = false
  | binary op e1 e2, st => e1.Safe c st ∧ ∀ r1 st1, e1.eval c st = .ok (r1, st1) →
      e2.Safe c st1 ∧ ∀ r2 st2, e2.eval c st1 = .ok (r2, st2) → StepSafe c st2 op r1 r2

section steps

variable {c : Here} {st st' : Labels} {P : Placement} {pe e2 r : PcrelValue} {op : Op}

/-- What an operation with two operands gives: an error, or a result that stands for the right value. -/
def StepMeets (c : Here) (st : Labels) (op : Op) (pe e2 : PcrelValue) (res : Except Halt PcrelValue) : Prop :=
  res ≠ .error .crash ∧ ∀ r, res = .ok r → ∀ P, Placement.Places P st →
    op.value (P.value c pe) (P.value c e2) = some (P.value c r)

theorem value_constant (P : Placement) (c : Here) (hsym : r.sym = none) (hpcrel : r.pcrel = false) :
    P.value c r = r.v := by
  rw [Placement.value, PcrelValue.final, hsym, hpcrel]
  simp

theorem constant_op_meets {f : BitVec 64 → BitVec 64 → Except Halt (BitVec 64)}
    (hpcrel : pe.sym = none → e2.sym = none → pe.pcrel = false ∧ e2.pcrel = false)
    (hcrash : f pe.v e2.v ≠ .error .crash)
    (hvalue : pe.sym = none → e2.sym = none → ∀ v, f pe.v e2.v = .ok v →
      op.value pe.v e2.v = some v) :
    StepMeets c st op pe e2 (constant_op f pe e2) := by
  rw [constant_op]
  split
  · exact ⟨fun h => (by cases h), fun r h => (by cases h)⟩
  · rename_i hconst
    rw [Bool.or_eq_true, not_or, Option.not_isSome_iff_eq_none, Option.not_isSome_iff_eq_none] at hconst
    obtain ⟨hp1, hp2⟩ := hpcrel hconst.1 hconst.2
    cases hf : f pe.v e2.v with
    | error err =>
      refine ⟨fun h => hcrash ?_, fun r h => (by cases h)⟩
      cases h
      exact hf
    | ok v =>
      refine ⟨fun h => (by cases h), fun r h P hP => ?_⟩
      cases h
      have hres : P.value c { pe with v := v } = v := @value_constant { pe with v := v } P c hconst.1 hp1
      rw [value_constant P c hconst.1 hp1, value_constant P c hconst.2 hp2, hres]
      exact hvalue hconst.1 hconst.2 v hf

theorem StepSafe.constant (h : StepSafe c st op pe e2) (hop : op.level ≠ 2) (hpe : pe.sym = none)
    (he2 : e2.sym = none) : ConstantStep op pe e2 := by
  cases op with
  | add => exact absurd rfl hop
  | sub => exact absurd rfl hop
  | _ => exact h hpe he2

theorem StepSafe.pcrel (h : StepSafe c st op pe e2) (hop : op.level ≠ 2) (hpe : pe.sym = none)
    (he2 : e2.sym = none) : pe.pcrel = false ∧ e2.pcrel = false :=
  ⟨(h.constant hop hpe he2).1, (h.constant hop hpe he2).2.1⟩

theorem sdiv_of_nonneg {a b : BitVec 64} (h : a.msb = false ∧ b.msb = false) : a.sdiv b = a / b := by
  rw [BitVec.sdiv_eq, h.1, h.2]
  rfl

theorem srem_of_nonneg {a b : BitVec 64} (h : a.msb = false ∧ b.msb = false) : a.srem b = a % b := by
  rw [BitVec.srem_eq, h.1, h.2]

theorem sshiftRight_of_nonneg {a b : BitVec 64} (h : a.msb = false) : a.sshiftRight' b = a >>> b := by
  rw [BitVec.sshiftRight', BitVec.sshiftRight_eq_of_msb_false h]
  rfl

theorem prod_op_meets (hop : op.level = 0) (h : StepSafe c st op pe e2) :
    StepMeets c st op pe e2 (constant_op (prod_op op) pe e2) := by
  cases op with
  | mul =>
    refine constant_op_meets (h.pcrel (by decide)) (fun h => (by cases h)) fun _ _ v hv => ?_
    cases hv
    rfl
  | div =>
    refine constant_op_meets (h.pcrel (by decide)) (fun hcrash => ?_) fun hpe he2 v hv => ?_
    · rw [prod_op] at hcrash
      split at hcrash <;> cases hcrash
    · rw [prod_op] at hv
      split at hv
      · cases hv
      · rename_i hne
        cases hv
        rw [Op.value, if_neg hne, sdiv_of_nonneg ((h hpe he2).2.2 hne)]
  | mod =>
    refine constant_op_meets (h.pcrel (by decide)) (fun hcrash => ?_) fun hpe he2 v hv => ?_
    · rw [prod_op] at hcrash
      split at hcrash <;> cases hcrash
    · rw [prod_op] at hv
      split at hv
      · cases hv
      · rename_i hne
        cases hv
        rw [Op.value, if_neg hne, srem_of_nonneg ((h hpe he2).2.2 hne)]
  | shl =>
    refine constant_op_meets (h.pcrel (by decide)) (fun h => (by cases h)) fun hpe he2 v hv => ?_
    cases hv
    have hlt : e2.v.toNat < 64 := (h hpe he2).2.2
    rw [Nat.mod_eq_of_lt hlt]
    rfl
  | sar =>
    refine constant_op_meets (h.pcrel (by decide)) (fun h => (by cases h)) fun hpe he2 v hv => ?_
    cases hv
    have hstep := (h hpe he2).2.2
    have hlt : e2.v.toNat < 64 := hstep.2
    rw [Nat.mod_eq_of_lt hlt, Op.value, sshiftRight_of_nonneg hstep.1]
    rfl
  | _ => cases hop

theorem logic_op_value (hop : op.level = 1) (a b : BitVec 64) : op.value a b = some (logic_op op a b) := by
  cases op with
  | and | or | xor => rfl
  | _ => cases hop

theorem logic_op_meets (hop : op.level = 1) (h : StepSafe c st op pe e2) :
    StepMeets c st op pe e2 (constant_op (fun a b => return logic_op op a b) pe e2) := by
  refine constant_op_meets (h.pcrel (by omega)) (fun h => (by cases h)) fun _ _ v hv => ?_
  cases hv
  exact logic_op_value hop pe.v e2.v

theorem neg_truth (b : Bool) : -truth b = if b = true then -1 else 0 := by
  cases b <;> rfl

theorem cmp_op_value (hop : op.level = 3) (a b : BitVec 64) : op.value a b = some (cmp_op op a b) := by
  cases op with
  | eq => simp [Op.value, cmp_op, cmp_truth, neg_truth]
  | ne => simp [Op.value, cmp_op, cmp_truth, neg_truth]
  | lt => simp [Op.value, cmp_op, cmp_truth, neg_truth, BitVec.slt_iff_toInt_lt]
  | ge => simp [Op.value, cmp_op, cmp_truth, neg_truth, BitVec.sle_iff_toInt_le]
  | le => simp [Op.value, cmp_op, cmp_truth, neg_truth, BitVec.sle_iff_toInt_le]
  | gt => simp [Op.value, cmp_op, cmp_truth, neg_truth, BitVec.slt_iff_toInt_lt]
  | _ => cases hop

theorem cmp_op_meets (hop : op.level = 3) (h : StepSafe c st op pe e2) :
    StepMeets c st op pe e2 (constant_op (fun a b => return cmp_op op a b) pe e2) := by
  refine constant_op_meets (h.pcrel (by omega)) (fun h => (by cases h)) fun _ _ v hv => ?_
  cases hv
  exact cmp_op_value hop pe.v e2.v

theorem sum_add_meets (h : StepSafe c st .add pe e2) : StepMeets c st .add pe e2 (sum_add pe e2) := by
  rw [sum_add]
  split
  · exact ⟨fun h => (by cases h), fun r h => (by cases h)⟩
  · rename_i hsyms
    rw [Bool.and_eq_true, not_and_or, Option.not_isSome_iff_eq_none, Option.not_isSome_iff_eq_none] at hsyms
    refine ⟨fun h => (by cases h), fun r hr P hP => ?_⟩
    cases hr
    have hpcrel := h hsyms
    rw [Op.value, Placement.value, Placement.value, Placement.value, PcrelValue.final, PcrelValue.final,
      PcrelValue.final, hpcrel]
    rcases hsyms with hsym | hsym
    · simp [hsym]
      ring
    · cases pe.sym with
      | none =>
        simp [hsym]
        ring
      | some sym =>
        simp [hsym]
        ring

theorem same_section_eq_some {esym1 : Option LabelEsym} {esym2 esym : LabelEsym}
    (h : same_section esym1 esym2 = some esym) :
    esym1 = some esym ∧ esym.st_shndx = esym2.st_shndx ∧ esym.st_shndx ≠ 0 := by
  rw [same_section, Option.filter_eq_some_iff] at h
  exact ⟨h.1, of_decide_eq_true h.2⟩

/-- The symbol that is subtracted is another than that of the first operand. -/
theorem sum_sub_sym_meets {sym2 : Nat} (he2 : e2.sym = some sym2) (h : SubSymStep c st pe e2 sym2) :
    StepMeets c st .sub pe e2
      (sum_sub_sym c (pe.sym.bind st.elfsym) (st.elfsym sym2) { pe with v := pe.v - e2.v }) := by
  obtain ⟨esym2, hesym2, hsame, hcur⟩ := h
  unfold sum_sub_sym
  rw [hesym2]
  dsimp only
  cases hfold : same_section (pe.sym.bind st.elfsym) esym2 with
  | some esym1 =>
    refine ⟨fun h => (by cases h), fun r hr P hP => ?_⟩
    cases hr
    obtain ⟨hpcrel, hcommon⟩ := hsame (by rw [hfold]; rfl)
    obtain ⟨hbind, hshndx, hdefined⟩ := same_section_eq_some hfold
    obtain ⟨sym1, hsym1, hesym1⟩ := Option.bind_eq_some_iff.mp hbind
    have haddr1 := hP sym1 esym1 hesym1 hdefined (hshndx ▸ hcommon)
    have haddr2 := hP sym2 esym2 hesym2 (hshndx ▸ hdefined) hcommon
    rw [Op.value, Placement.value, Placement.value, Placement.value, PcrelValue.final, PcrelValue.final,
      PcrelValue.final, hpcrel, hsym1, he2, Option.elim_some,
      Option.elim_some, haddr1, haddr2, hshndx]
    refine congrArg some ?_
    dsimp only [Option.elim_none]
    rw [if_neg Bool.false_ne_true]
    ring
  | none =>
    dsimp only
    split
    · rename_i hshndx
      refine ⟨fun h => (by cases h), fun r hr P hP => ?_⟩
      cases hr
      obtain ⟨hpcrel2, hpcrel⟩ := hcur hfold hshndx
      have hne : esym2.st_shndx ≠ 0 := by
        have := c.regular.1
        omega
      have hcommon : esym2.st_shndx ≠ SHN_COMMON := by
        have := c.regular.2
        rw [SHN_COMMON]
        omega
      have haddr2 := hP sym2 esym2 hesym2 hne hcommon
      rw [Op.value, Placement.value, Placement.value, Placement.value, PcrelValue.final, PcrelValue.final,
      PcrelValue.final, hpcrel, hpcrel2, he2, Option.elim_some,
        haddr2, hshndx, Placement.here]
      refine congrArg some ?_
      dsimp only
      rw [if_neg Bool.false_ne_true, if_pos rfl]
      ring
    · exact ⟨fun h => (by cases h), fun r h => (by cases h)⟩

theorem sum_sub_meets (h : StepSafe c st .sub pe e2) : StepMeets c st .sub pe e2 (sum_sub c st pe e2) := by
  obtain ⟨hpcrel, hsub⟩ := h
  rw [sum_sub]
  split
  · rename_i he2
    refine ⟨fun h => (by cases h), fun r hr P hP => ?_⟩
    cases hr
    rw [Op.value, Placement.value, Placement.value, Placement.value, PcrelValue.final, PcrelValue.final,
      PcrelValue.final, hpcrel (Or.inl he2), he2]
    simp
    ring
  · rename_i sym2 he2
    split
    · rename_i hsame
      refine ⟨fun h => (by cases h), fun r hr P hP => ?_⟩
      cases hr
      rw [Op.value, Placement.value, Placement.value, Placement.value, PcrelValue.final, PcrelValue.final,
      PcrelValue.final, hpcrel (Or.inr (he2.trans hsame.symm)),
        he2, hsame]
      simp
      ring
    · rename_i hne
      exact sum_sub_sym_meets he2 (hsub sym2 he2 hne)

theorem apply_meets (h : StepSafe c st op pe e2) :
    StepMeets c st op pe e2 ((levels c op.level).apply st op pe e2) := by
  cases op with
  | mul | div | mod | shl | sar => exact prod_op_meets rfl h
  | and | or | xor => exact logic_op_meets rfl h
  | add => exact sum_add_meets h
  | sub => exact sum_sub_meets h
  | eq | ne | lt | ge | le | gt => exact cmp_op_meets rfl h

end steps

section runs

variable {c : Here} {st st' : Labels} {P : Placement} {r : PcrelValue} {e : AsmExpr}

theorem Placement.Places.mono (hP : P.Places st') (h : Labels.Stays st st') : P.Places st :=
  fun k esym hk => hP k esym (h k esym hk)

theorem bind_eq_crash {α β : Type} {x : Except Halt α} {f : α → Except Halt β}
    (h : x >>= f = .error .crash) : x = .error .crash ∨ ∃ a, x = .ok a ∧ f a = .error .crash := by
  cases x with
  | error err =>
    cases h
    exact Or.inl rfl
  | ok a => exact Or.inr ⟨a, rfl, h⟩

theorem stays_get_asm_sym (st : Labels) (name : List Byte) : Labels.Stays st (get_asm_sym st name).2 := by
  rw [get_asm_sym]
  split
  · exact fun k esym hk => hk
  · exact st.elfsym_push name

/-- The symbol of a section is entered with its place. -/
theorem asm_new_label_spec {label : List Byte} (hfind : st.asm_label_find label = none) (sh_num : Nat) :
    Labels.Stays st (st.asm_new_label label sh_num 0).2 ∧
      (st.asm_new_label label sh_num 0).2.elfsym (st.asm_new_label label sh_num 0).1 =
        some ⟨sh_num, 0⟩ := by
  rw [Labels.asm_new_label, hfind]
  have hsyms : (st.asm_label_push label).2.syms = st.syms ++ [⟨st.sym_identifier label, none⟩] := rfl
  constructor
  · intro k esym hk
    obtain ⟨s, hs, hc⟩ := Option.bind_eq_some_iff.mp hk
    have hlt := (List.getElem?_eq_some_iff.mp hs).1
    have hne : st.syms.length ≠ k := Nat.ne_of_gt hlt
    refine Option.bind_eq_some_iff.mpr ⟨s, ?_, hc⟩
    change ((st.asm_label_push label).2.syms.modify st.syms.length _)[k]? = _
    rw [hsyms, List.getElem?_modify, List.getElem?_append_left hlt, hs]
    simp [hne]
  · change (((st.asm_label_push label).2.syms.modify st.syms.length _)[st.syms.length]?).bind _ = _
    rw [hsyms, List.getElem?_modify, List.getElem?_concat_length]
    simp

theorem stays_asm_section_sym (c : Here) (st : Labels) : Labels.Stays st (asm_section_sym c st).2 := by
  rw [asm_section_sym]
  split
  · exact fun k esym hk => hk
  · rename_i hfind
    exact (asm_new_label_spec hfind c.sh_num).1

theorem elfsym_asm_section_sym
    (h : ∀ k, st.asm_label_find (section_label c) = some k → st.elfsym k = some ⟨c.sh_num, 0⟩) :
    (asm_section_sym c st).2.elfsym (asm_section_sym c st).1 = some ⟨c.sh_num, 0⟩ := by
  rw [asm_section_sym]
  split
  · rename_i sym hfind
    exact h sym hfind
  · rename_i hfind
    exact (asm_new_label_spec hfind c.sh_num).2

/-- A number is a constant, or the symbol of a label. -/
theorem asm_number_ok {p : List Byte} {v : ExprValue} (h : st.asm_number p = .ok (v, st')) :
    Labels.Stays st st' ∧
      ((∃ k, v = ⟨0, some k⟩) ∨
        v = ⟨BitVec.ofNat 64 (strtoull p).1, none⟩ ∧ (strtoull p).2 = []) := by
  unfold Labels.asm_number at h
  dsimp only at h
  split at h
  · split at h
    · split at h
      · cases h
        exact ⟨fun k esym hk => hk, Or.inl ⟨_, rfl⟩⟩
      · cases h
    · split at h
      · split at h
        · cases h
          exact ⟨st.elfsym_push _, Or.inl ⟨_, rfl⟩⟩
        · cases h
          exact ⟨fun k esym hk => hk, Or.inl ⟨_, rfl⟩⟩
      · cases h
        exact ⟨st.elfsym_push _, Or.inl ⟨_, rfl⟩⟩
  · split at h
    · rename_i hrest
      cases h
      exact ⟨fun k esym hk => hk, Or.inr ⟨rfl, hrest⟩⟩
    · cases h

theorem strtoull_fst (p : List Byte) : (strtoull p).1 = min (literal p) (2 ^ 64 - 1) := by
  rw [strtoull, literal]
  split
  · split
    · rfl
    · rfl
  · rfl

theorem ofNat_strtoull {p : List Byte} (h : literal p < 2 ^ 64) :
    BitVec.ofNat 64 (strtoull p).1 = BitVec.ofNat 64 (literal p) := by
  rw [strtoull_fst, Nat.min_eq_left (Nat.le_sub_one_of_lt h)]

theorem eval_stays (h : e.eval c st = .ok (r, st')) : Labels.Stays st st' := by
  induction e generalizing st r st' with
  | number p =>
    rw [AsmExpr.eval, asm_number] at h
    split at h
    · rename_i hnumber
      cases h
      exact (asm_number_ok hnumber).1
    · cases h
  | char i =>
    cases h
    exact fun k esym hk => hk
  | label name =>
    cases h
    exact stays_get_asm_sym st name
  | dot =>
    cases h
    exact stays_asm_section_sym c st
  | plus e ih => exact ih h
  | minus e ih | tilde e ih =>
    obtain ⟨⟨pe, st₁⟩, heval, hrest⟩ := bind_ok.mp h
    obtain ⟨pe', -, hres⟩ := bind_ok.mp hrest
    cases hres
    exact ih heval
  | binary op e1 e2 ih1 ih2 =>
    obtain ⟨⟨pe, st₁⟩, heval1, hrest⟩ := bind_ok.mp h
    obtain ⟨⟨pe2, st₂⟩, heval2, hrest⟩ := bind_ok.mp hrest
    obtain ⟨pe', -, hres⟩ := bind_ok.mp hrest
    cases hres
    exact (ih1 heval1).trans (ih2 heval2)

/-- A symbol stands for its address. -/
theorem value_label_value (hP : P.Places st) (sym : Nat) : P.value c (label_value st sym) = P.addr sym := by
  rw [label_value]
  split
  · rename_i esym hesym
    split
    · rename_i habs
      have haddr := hP sym esym hesym (by rw [habs]; decide) (by rw [habs]; decide)
      rw [habs, P.base_abs] at haddr
      rw [Placement.value, PcrelValue.final, haddr]
      simp
    · simp [Placement.value, PcrelValue.final]
  · simp [Placement.value, PcrelValue.final]

/-- The position is in its section. -/
theorem value_section_sym {sym : Nat} (hesym : st.elfsym sym = some ⟨c.sh_num, 0⟩) (hP : P.Places st) :
    P.value c ⟨⟨ulong c.ind, some sym⟩, false⟩ = P.here c := by
  have hcommon : c.sh_num ≠ SHN_COMMON := by
    have hlt := c.regular.2
    rw [SHN_COMMON]
    omega
  have haddr := hP sym _ hesym (Nat.ne_of_gt c.regular.1) hcommon
  rw [Placement.value, PcrelValue.final, Placement.here, Option.elim_some, haddr]
  simp
  ring

theorem value_map (x : Option (BitVec 64 × Labels)) (f : BitVec 64 → BitVec 64) :
    (do let (v, st) ← x; return (f v, st)) = x.map fun r => (f r.1, r.2) := by
  cases x <;> rfl

theorem invert_ok {f : BitVec 64 → BitVec 64} {pe : PcrelValue} (h : invert f pe = .ok r) :
    pe.sym = none ∧ r = { pe with v := f pe.v } := by
  rw [invert] at h
  split at h
  · cases h
  · rename_i hsym
    cases h
    exact ⟨Option.not_isSome_iff_eq_none.mp hsym, rfl⟩

theorem invert_ne_crash (f : BitVec 64 → BitVec 64) (pe : PcrelValue) : invert f pe ≠ .error .crash := by
  rw [invert]
  split
  · exact fun h => (by cases h)
  · exact fun h => (by cases h)

/-- A sign before an expression whose result is not relative to the place. -/
theorem eval_inverted {f : BitVec 64 → BitVec 64} {e' : AsmExpr}
    (heval : e'.eval c st = e.eval c st >>= fun r => invert f r.1 >>= fun pe => .ok (pe, r.2))
    (hvalue' : ∀ P, e'.value c P st = (e.value c P st).map fun r => (f r.1, r.2))
    (hpcrel : ∀ r st', e.eval c st = .ok (r, st') → r.sym = none → r.pcrel = false)
    (hcrash : e.eval c st ≠ .error .crash)
    (hvalue : ∀ r st', e.eval c st = .ok (r, st') → ∀ P, Placement.Places P st' →
      e.value c P st = some (P.value c r, st')) :
    e'.eval c st ≠ .error .crash ∧
      ∀ r st', e'.eval c st = .ok (r, st') → ∀ P, Placement.Places P st' →
        e'.value c P st = some (P.value c r, st') := by
  rw [heval]
  constructor
  · intro h
    rcases bind_eq_crash h with h | ⟨r, -, h⟩
    · exact hcrash h
    · rcases bind_eq_crash h with h | ⟨pe, -, h⟩
      · exact invert_ne_crash f r.1 h
      · cases h
  · intro r st' hr P hP
    obtain ⟨⟨pe, st₁⟩, hpe, hr⟩ := bind_ok.mp hr
    obtain ⟨pe', hinvert, hr⟩ := bind_ok.mp hr
    cases hr
    obtain ⟨hsym, rfl⟩ := invert_ok hinvert
    have hp := hpcrel pe st₁ hpe hsym
    have hres : P.value c { pe with v := f pe.v } = f pe.v :=
      @value_constant { pe with v := f pe.v } P c hsym hp
    rw [hvalue', hvalue pe st₁ hpe P hP, Option.map_some, value_constant P c hsym hp, hres]

/-- A safe expression is an error, or its result stands for its value. -/
theorem eval_safe (h : e.Safe c st) :
    e.eval c st ≠ .error .crash ∧
      ∀ r st', e.eval c st = .ok (r, st') → ∀ P, Placement.Places P st' →
        e.value c P st = some (P.value c r, st') := by
  induction e generalizing st with
  | number p =>
    rw [AsmExpr.eval, asm_number]
    cases hnumber : st.asm_number p with
    | error msg => exact ⟨fun h => (by cases h), fun r st' h => (by cases h)⟩
    | ok res =>
      obtain ⟨v, st₁⟩ := res
      refine ⟨fun h => (by cases h), fun r st' hr P hP => ?_⟩
      cases hr
      rw [AsmExpr.value, hnumber]
      obtain ⟨-, ⟨k, rfl⟩ | ⟨rfl, hrest⟩⟩ := asm_number_ok hnumber
      · simp [Placement.value, PcrelValue.final]
      · simp [Placement.value, PcrelValue.final, ofNat_strtoull (h hrest)]
  | char i =>
    refine ⟨fun h => (by cases h), fun r st' hr P hP => ?_⟩
    cases hr
    simp [AsmExpr.value, Placement.value, PcrelValue.final]
  | label name =>
    refine ⟨fun h => (by cases h), fun r st' hr P hP => ?_⟩
    cases hr
    exact congrArg (fun v => some (v, _)) (value_label_value hP _).symm
  | dot =>
    refine ⟨fun h => (by cases h), fun r st' hr P hP => ?_⟩
    cases hr
    exact congrArg (fun v => some (v, _)) (value_section_sym (elfsym_asm_section_sym h) hP).symm
  | plus e ih => exact ih h
  | minus e ih =>
    obtain ⟨hcrash, hvalue⟩ := ih h.1
    exact eval_inverted rfl (fun P => value_map _ _) h.2 hcrash hvalue
  | tilde e ih =>
    obtain ⟨hcrash, hvalue⟩ := ih h.1
    exact eval_inverted rfl (fun P => value_map _ _) h.2 hcrash hvalue
  | binary op e1 e2 ih1 ih2 =>
    obtain ⟨hsafe1, hrest⟩ := h
    obtain ⟨hcrash1, hvalue1⟩ := ih1 hsafe1
    constructor
    · intro hcrash
      rcases bind_eq_crash hcrash with hcrash | ⟨⟨r1, st₁⟩, heval1, hcrash⟩
      · exact hcrash1 hcrash
      · obtain ⟨hsafe2, hstep⟩ := hrest r1 st₁ heval1
        rcases bind_eq_crash hcrash with hcrash | ⟨⟨r2, st₂⟩, heval2, hcrash⟩
        · exact (ih2 hsafe2).1 hcrash
        · rcases bind_eq_crash hcrash with hcrash | ⟨r, -, hcrash⟩
          · exact (apply_meets (hstep r2 st₂ heval2)).1 hcrash
          · cases hcrash
    · intro r st' hr P hP
      obtain ⟨⟨r1, st₁⟩, heval1, hr⟩ := bind_ok.mp hr
      obtain ⟨⟨r2, st₂⟩, heval2, hr⟩ := bind_ok.mp hr
      obtain ⟨r', happly, hr⟩ := bind_ok.mp hr
      cases hr
      obtain ⟨hsafe2, hstep⟩ := hrest r1 st₁ heval1
      have hv1 := hvalue1 r1 st₁ heval1 P (hP.mono (eval_stays heval2))
      have hv2 := (ih2 hsafe2).2 r2 st' heval2 P hP
      have hv := (apply_meets (hstep r2 st' heval2)).2 r happly P hP
      calc AsmExpr.value c P (.binary op e1 e2) st
        _ = e1.value c P st >>= fun a => e2.value c P a.2 >>= fun b =>
            op.value a.1 b.1 >>= fun v => some (v, b.2) := rfl
        _ = op.value (P.value c r1) (P.value c r2) >>= fun v => some (v, st') := by
          rw [hv1, Option.bind_eq_bind, Option.bind_some, hv2, Option.bind_eq_bind, Option.bind_some]
        _ = some (P.value c r, st') := by rw [hv, Option.bind_eq_bind, Option.bind_some]

/-- Where every operation of an expression is one that the code computes rightly, `asm_expr` ends with an
    error, or with a result that stands for the value of the expression wherever the sections are placed. -/
theorem asm_expr_of_safe {ts rest : List Tok} (hderives : Derives 4 e ts) (hrest : Starts 4 rest)
    (hsafe : e.Safe c st) : Meets c st e ts rest := by
  obtain ⟨hcrash, hvalue⟩ := eval_safe hsafe
  rw [Meets, asm_expr_derives hderives hrest]
  cases heval : e.eval c st with
  | error err =>
    cases err with
    | error msg => exact True.intro
    | crash => exact hcrash heval
  | ok r => exact ⟨rfl, hvalue r.1 r.2 heval⟩

end runs

/-- The start of a section. -/
def text_start : Here := ⟨[46#8, 116#8], 1, 0, by decide⟩

/-- A section with a label `b`, and a place after it. -/
def labels_b : Labels := ⟨[⟨none, some ⟨1, 4⟩⟩], fun v => if v = [98#8] then some 0 else none⟩

def eight_minus_b : AsmExpr := .binary .sub (.number [56#8]) (.label [98#8])

/-- `8 - b` -/
theorem meets_eight_minus_b :
    Meets text_start labels_b eight_minus_b [.ppnum [56#8], .op .sub, .ident [98#8]] [] := by
  refine asm_expr_of_safe (.operand (@Derives.binary 2 .sub _ _ [.ppnum [56#8]] [.ident [98#8]] ?_ ?_ rfl))
    (fun op ts h => (by cases h)) ?_
  · exact .operand (.operand (.operand (.number _)))
  · exact .operand (.operand (.label _))
  · refine ⟨fun _ => by decide, fun r1 st1 h1 => ⟨True.intro, fun r2 st2 h2 => ?_⟩⟩
    cases h1
    cases h2
    refine ⟨fun _ => rfl, fun sym2 hsym2 _ => ?_⟩
    cases hsym2
    exact ⟨⟨1, 4⟩, rfl, fun _ => ⟨rfl, by decide⟩, fun _ _ => ⟨rfl, rfl⟩⟩

def one_minus_f : AsmExpr := .binary .sub (.number [49#8]) (.label [102#8])

def minus_four_div_two : AsmExpr := .binary .div (.minus (.number [52#8])) (.number [50#8])

/-- `1 - f` with a symbol that has not been seen reads the entry of no symbol, and `-4 / 2` is not `-2`. -/
theorem wrong_expressions :
    (Derives 4 one_minus_f [.ppnum [49#8], .op .sub, .ident [102#8]] ∧
      ¬ Meets text_start no_labels one_minus_f [.ppnum [49#8], .op .sub, .ident [102#8]] []) ∧
    (Derives 4 minus_four_div_two [.op .sub, .ppnum [52#8], .op .div, .ppnum [50#8]] ∧
      ¬ Meets text_start no_labels minus_four_div_two
        [.op .sub, .ppnum [52#8], .op .div, .ppnum [50#8]] []) := by
  refine ⟨⟨?_, ?_⟩, ?_, ?_⟩
  · refine .operand (@Derives.binary 2 .sub _ _ [.ppnum [49#8]] [.ident [102#8]] ?_ ?_ rfl)
    · exact .operand (.operand (.operand (.number _)))
    · exact .operand (.operand (.label _))
  · intro h
    rw [Meets] at h
    have hrun : asm_expr text_start no_labels ([.ppnum [49#8], .op .sub, .ident [102#8]] ++ []) =
      .error .crash := rfl
    rw [hrun] at h
    exact h
  · refine .operand (.operand (.operand
      (@Derives.binary 0 .div _ _ [.op .sub, .ppnum [52#8]] [.ppnum [50#8]] ?_ ?_ rfl)))
    · exact .operand (.minus (.number _))
    · exact .number _
  · intro h
    rw [Meets] at h
    have hrun : asm_expr text_start no_labels ([.op .sub, .ppnum [52#8], .op .div, .ppnum [50#8]] ++ []) =
      .ok (⟨⟨0x7ffffffffffffffe#64, none⟩, false⟩, no_labels, []) := rfl
    rw [hrun] at h
    have hvalue := h.2 ⟨fun _ => 0, fun _ => 0, rfl⟩ fun k esym hk => (by cases hk)
    have hmeaning : minus_four_div_two.value text_start ⟨fun _ => 0, fun _ => 0, rfl⟩ no_labels =
      some (-2, no_labels) := rfl
    rw [hmeaning] at hvalue
    have heq := congrArg Prod.fst (Option.some.inj hvalue)
    exact absurd heq (by decide)

end tcc.asm.expr
