import Tcc.Gen.Types
import Tcc.Gen.Riscv64.Emit

open machine.rv64

namespace tcc

/-- The operation an instruction computes on words of its own width. -/
def Op.alu {w : Nat} (op : Op) (x y : BitVec w) : BitVec w :=
  match op with
  | .add => x + y
  | .sub => x - y
  | .mul => x * y
  | .div => divS x y
  | .mod => x.srem y
  | .TOK_UDIV | .TOK_PDIV => divU x y
  | .TOK_UMOD => x % y
  | .TOK_SHL => x <<< (y.toNat % w)
  | .TOK_SHR => x >>> (y.toNat % w)
  | .TOK_SAR => x.sshiftRight (y.toNat % w)
  | .and => x &&& y
  | .xor => x ^^^ y
  | .or => x ||| y
  | _ => 0#w

/-- The truth of a comparison of two whole registers. -/
def Op.holds {w : Nat} (op : Op) (x y : BitVec w) : Bool :=
  match op with
  | .TOK_ULT => x.ult y
  | .TOK_UGE => !x.ult y
  | .TOK_ULE => !y.ult x
  | .TOK_UGT => y.ult x
  | .TOK_LT => x.slt y
  | .TOK_GE => !x.slt y
  | .TOK_LE => !y.slt x
  | .TOK_GT => y.slt x
  | .TOK_EQ => x == y
  | .TOK_NE => x != y
  | _ => false

/-- The bitwise operations have no word form. -/
def Op.isBitwise (op : Op) : Bool :=
  match op with
  | .and | .xor | .or => true
  | _ => false

theorem slt_succ {w : Nat} (hw : 1 < w) {x y : BitVec w} (hy : y.toInt + 1 < 2 ^ (w - 1)) :
    x.slt (y + 1#w) = !y.slt x := by
  have hlo := BitVec.le_toInt y
  have hpow : (2 ^ w : Nat) = 2 ^ (w - 1) * 2 := (Nat.two_pow_pred_mul_two (by omega)).symm
  have hcast : ((2 ^ (w - 1) : Nat) : Int) = 2 ^ (w - 1) := Nat.cast_pow 2 (w - 1)
  rw [Bool.eq_iff_iff, Bool.not_eq_true', ← Bool.not_eq_true, BitVec.slt_iff_toInt_lt,
    BitVec.slt_iff_toInt_lt, BitVec.toInt_add, BitVec.toInt_one hw, Int.bmod_eq_of_le]
    <;> omega

theorem ult_succ {w : Nat} (hw : 1 < w) {x y : BitVec w} (hy : y ≠ -1#w) :
    x.ult (y + 1#w) = !y.ult x := by
  have hne : y.toNat ≠ 2 ^ w - 1 := by
    intro hmax
    apply hy
    rw [BitVec.neg_one_eq_allOnes]
    exact BitVec.eq_of_toNat_eq (hmax.trans BitVec.toNat_allOnes.symm)
  have hlt := y.isLt
  rw [Bool.eq_iff_iff, Bool.not_eq_true', ← Bool.not_eq_true, BitVec.ult_iff_lt, BitVec.ult_iff_lt,
    BitVec.lt_def, BitVec.lt_def, BitVec.toNat_add, BitVec.toNat_one (by omega),
    Nat.mod_eq_of_lt (by omega)]
  omega

theorem Op.holds_xor1 {w : Nat} {op : Op} (hop : op.isCmp = true) (x y : BitVec w) :
    op.xor1.holds x y = !op.holds x y := by
  cases op <;> first
    | exact absurd hop (by decide)
    | simp [Op.holds, Op.xor1, bne]

end tcc

namespace tcc.riscv64

open tcc.Op

/-- What `gen_opil` leaves on top of the value stack: a register, or a pending
    comparison of two registers (`VT_CMP` with `cmp_op` and `cmp_r`). -/
inductive Result where
  | reg (d : BitVec 5)
  | cmp (op : Op) (a b : BitVec 5)
  deriving DecidableEq, Repr

/-- The second half of `gen_opil`, with both operands in registers: the code it
    emits for `d = a op b`. `none` is the error for operators it does not
    implement. -/
def gen_opil_reg (op : Op) (ll : Bool) (d a b : BitVec 5) : Option (List Word × Result) :=
  let w : BitVec 7 := if ll then 0#7 else 8#7
  match op with
  | .add => some ([ER (0x33#7 ||| w) 0 d a b 0], .reg d)
  | .sub => some ([ER (0x33#7 ||| w) 0 d a b 0x20], .reg d)
  | TOK_SAR => some ([ER (0x33#7 ||| w ||| w) 5 d a b 0x20], .reg d)
  | TOK_SHR => some ([ER (0x33#7 ||| w ||| w) 5 d a b 0], .reg d)
  | TOK_SHL => some ([ER (0x33#7 ||| w) 1 d a b 0], .reg d)
  | .mul => some ([ER (0x33#7 ||| w) 0 d a b 1], .reg d)
  | .div => some ([ER (0x33#7 ||| w) 4 d a b 1], .reg d)
  | .and => some ([ER 0x33#7 7 d a b 0], .reg d)
  | .xor => some ([ER 0x33#7 4 d a b 0], .reg d)
  | .or => some ([ER 0x33#7 6 d a b 0], .reg d)
  | .mod => some ([ER (if ll then 0x33#7 else 0x3b#7) 6 d a b 1], .reg d)
  | TOK_UMOD => some ([ER (0x33#7 ||| w) 7 d a b 1], .reg d)
  | TOK_PDIV | TOK_UDIV => some ([ER (0x33#7 ||| w) 5 d a b 1], .reg d)
  | TOK_LAND | TOK_LOR => none
  | TOK_ULT | TOK_UGE | TOK_EQ | TOK_NE | TOK_ULE | TOK_UGT | TOK_LT | TOK_GE | TOK_LE | TOK_GT =>
    some ([], .cmp op a b)

/-- What the first half of `gen_opil` does with a constant second operand. -/
inductive ImmForm where
  | cop (w : BitVec 7) (func3 : BitVec 3) (imm : BitVec 32)
  | inverted (op : Op)
  | compare
  | no
  deriving DecidableEq, Repr

/-- The switch over the operators that have an immediate form for the constant
    `fc`; `no` falls through to the code for two registers. -/
def gen_opil_imm (op : Op) (ll : Bool) (fc : BitVec 32) : ImmForm :=
  let w : BitVec 7 := if ll then 0#7 else 8#7
  let m : BitVec 32 := if ll then 63#32 else 31#32
  match op with
  | .sub => if fc.sle (-2048#32) then .no else .cop w 0 (-fc)
  | .add => .cop w 0 fc
  | TOK_LE => if (2047#32).sle fc then .no else .cop 0 2 (fc + 1#32)
  | TOK_LT => .cop 0 2 fc
  | TOK_ULE => if (2047#32).sle fc ∨ fc = -1#32 then .no else .cop 0 3 (fc + 1#32)
  | TOK_ULT => .cop 0 3 fc
  | .xor => .cop 0 4 fc
  | .or => .cop 0 6 fc
  | .and => .cop 0 7 fc
  | TOK_SHL => .cop w 1 (fc &&& m)
  | TOK_SHR => .cop w 5 (fc &&& m)
  | TOK_SAR => .cop w 5 (1024#32 ||| fc &&& m)
  | TOK_UGE => .inverted TOK_ULT
  | TOK_UGT => .inverted TOK_ULE
  | TOK_GE => .inverted TOK_LT
  | TOK_GT => .inverted TOK_LE
  | TOK_NE | TOK_EQ => .compare
  | _ => .no

/-- `load` of a pending comparison into register `rr`: the ordered comparisons
    are reduced to `LT`/`ULT` by inverting the result and by swapping. -/
def load_cmp (rr : BitVec 5) (op : Op) (a b : BitVec 5) : List Word :=
  let slt (f3 : BitVec 3) (a b : BitVec 5) (inv : Bool) : List Word :=
    ER 0x33#7 f3 rr a b 0 :: if inv then [EIu 0x13#7 4 rr rr 1#32] else []
  match op with
  | TOK_ULT => slt 3 a b false
  | TOK_UGE => slt 3 a b true
  | TOK_ULE => slt 3 b a true
  | TOK_UGT => slt 3 b a false
  | TOK_LT => slt 2 a b false
  | TOK_GE => slt 2 a b true
  | TOK_LE => slt 2 b a true
  | TOK_GT => slt 2 b a false
  | TOK_NE | TOK_EQ =>
    (if rr ≠ a ∨ b ≠ 0#5 then [ER 0x33#7 0 rr a b 0x20] else []) ++
      [if op = TOK_NE then ER 0x33#7 3 rr 0 rr 0 else EIu 0x13#7 3 rr rr 1#32]
  | _ => []

/-- The code of a binary operation whose result ends in register `d`. -/
def opil_code (op : Op) (ll : Bool) (d a b : BitVec 5) : Option (List Word) :=
  match gen_opil_reg op ll d a b with
  | none => none
  | some (ws, .reg _) => some ws
  | some (ws, .cmp op a b) => some (ws ++ load_cmp d op a b)

/-- A value of type `t` as a register holds it: sign-extended from 32 bits when
    the type is narrower than a register. -/
def regValue (t : Scalar) (v : BitVec 64) : BitVec 64 :=
  if btype_size t.bt < 8 then sext32 v else v

/-- The value `gen_opil` computes from the registers `x` and `y`. -/
def opil_value (op : Op) (ll : Bool) (x y : BitVec 64) : BitVec 64 :=
  if op.isCmp then boolWord (op.holds x y)
  else if ll || op.isBitwise then op.alu x y
  else (op.alu (x.setWidth 32) (y.setWidth 32)).signExtend 64

theorem gen_opil_reg_alu (op : Op) (ll : Bool) (d a b : BitVec 5) (h : Hart) (hop : op.isCmp = false)
    (hland : op ≠ TOK_LAND) (hlor : op ≠ TOK_LOR) :
    ∃ w, gen_opil_reg op ll d a b = some ([w], .reg d) ∧
      exec w h = some (h.set d (opil_value op ll (h.get a) (h.get b))).next := by
  cases op <;> first
    | exact absurd rfl hland
    | exact absurd rfl hlor
    | exact absurd hop (by decide)
    | (refine ⟨_, rfl, ?_⟩
       cases ll <;>
         simp [exec, aluR, aluRW, opil_value, Op.isCmp, Op.code, Op.isBitwise, Op.alu])

theorem gen_opil_reg_cmp (op : Op) (ll : Bool) (d a b : BitVec 5) (hop : op.isCmp = true) :
    gen_opil_reg op ll d a b = some ([], .cmp op a b) := by
  cases op <;> first
    | rfl
    | exact absurd hop (by decide)

/-- A set-less-than, followed by an inversion of the result. -/
theorem run_slt (h : Hart) {rr : BitVec 5} (hrr : rr ≠ 0#5) (f3 : BitVec 3) (a b : BitVec 5)
    (inv t : Bool) (ht : aluR 0#7 f3 (h.get a) (h.get b) = some (boolWord t)) :
    ∃ h', run (ER 0x33#7 f3 rr a b 0#7 :: if inv then [EIu 0x13#7 4 rr rr 1#32] else []) h =
      some h' ∧ Sets h rr (boolWord (cond inv (!t) t)) h' := by
  have hslt := Sets.set_next h hrr (boolWord t)
  rw [run_cons, exec_ER _ _ _ _ _ ht]
  cases inv with
  | false =>
    exact ⟨_, rfl, hslt⟩
  | true =>
    have hx : aluI 4 ((h.set rr (boolWord t)).next.get rr) ((1#32).setWidth 12) =
        some (boolWord (!t)) := by
      rw [hslt.value]
      cases t <;> decide
    refine ⟨((h.set rr (boolWord t)).next.set rr (boolWord (!t))).next, ?_, ?_⟩
    · simp only [if_true, Option.bind_some, run_cons, exec_EIu _ _ _ _ hx]
      rfl
    · exact hslt.trans (Sets.set_next _ hrr _)

theorem sub_bne_zero (x y : BitVec 64) : (x - y != 0#64) = (x != y) := by
  rw [Bool.eq_iff_iff, bne_iff_ne, bne_iff_ne, ne_eq, BitVec.sub_eq_iff_eq_add, BitVec.zero_add]

theorem seqz_value (x : BitVec 64) :
    aluI 3 x ((1#32).setWidth 12) = some (boolWord (!(x != 0#64))) := by
  have hone : (((1#32).setWidth 12).signExtend 64 : BitVec 64) = 1#64 := by decide
  have hult : x.ult 1#64 = !(x != 0#64) := by
    rw [Bool.eq_iff_iff, BitVec.ult_iff_lt, BitVec.lt_def]
    simp [← BitVec.toNat_inj]
  simp only [aluI, hone, hult]
  rfl

theorem snez_value (x : BitVec 64) : aluR 0 3 0#64 x = some (boolWord (x != 0#64)) := by
  have hult : (0#64).ult x = (x != 0#64) := by
    rw [Bool.eq_iff_iff, BitVec.ult_iff_lt, BitVec.lt_def]
    simp [← BitVec.toNat_inj, Nat.pos_iff_ne_zero]
  simp only [aluR, ← hult]
  rfl

/-- A subtraction, left out when it would copy a register to itself, followed by
    the test of its result against zero. -/
theorem run_sub_test (h : Hart) {rr : BitVec 5} (hrr : rr ≠ 0#5) (ne : Bool) (a b : BitVec 5) :
    ∃ h', run ((if rr ≠ a ∨ b ≠ 0#5 then [ER 0x33#7 0 rr a b 0x20] else []) ++
        [if ne then ER 0x33#7 3 rr 0 rr 0 else EIu 0x13#7 3 rr rr 1#32]) h = some h' ∧
      Sets h rr (boolWord (cond ne (h.get a != h.get b) (!(h.get a != h.get b)))) h' := by
  obtain ⟨h₁, hrun, hsub⟩ : ∃ h₁,
      run (if rr ≠ a ∨ b ≠ 0#5 then [ER 0x33#7 0 rr a b 0x20] else []) h = some h₁ ∧
        Sets h rr (h.get a - h.get b) h₁ := by
    split
    · refine ⟨_, by rw [run_cons, exec_ER _ _ _ _ _ rfl]; rfl, Sets.set_next h hrr _⟩
    · rename_i hne
      push Not at hne
      obtain ⟨rfl, rfl⟩ := hne
      exact ⟨h, rfl, by simp, fun _ _ => rfl, rfl⟩
  rw [run_append, hrun, Option.bind_some, run_cons, ← sub_bne_zero, ← hsub.value]
  cases ne with
  | false =>
    rw [if_neg (by decide), exec_EIu _ _ _ _ (seqz_value _)]
    exact ⟨_, rfl, hsub.trans (Sets.set_next h₁ hrr _)⟩
  | true =>
    rw [if_pos rfl, exec_ER _ _ _ _ _ (snez_value _)]
    exact ⟨_, rfl, hsub.trans (Sets.set_next h₁ hrr _)⟩

theorem load_cmp_run (h : Hart) {rr : BitVec 5} (hrr : rr ≠ 0#5) (op : Op)
    (hop : op.isCmp = true) (a b : BitVec 5) :
    ∃ h', run (load_cmp rr op a b) h = some h' ∧
      Sets h rr (boolWord (op.holds (h.get a) (h.get b))) h' := by
  cases op with
  | TOK_ULT => exact run_slt h hrr 3 a b false _ rfl
  | TOK_UGE => exact run_slt h hrr 3 a b true _ rfl
  | TOK_ULE => exact run_slt h hrr 3 b a true _ rfl
  | TOK_UGT => exact run_slt h hrr 3 b a false _ rfl
  | TOK_LT => exact run_slt h hrr 2 a b false _ rfl
  | TOK_GE => exact run_slt h hrr 2 a b true _ rfl
  | TOK_LE => exact run_slt h hrr 2 b a true _ rfl
  | TOK_GT => exact run_slt h hrr 2 b a false _ rfl
  | TOK_EQ =>
    obtain ⟨h', hrun, hsets⟩ := run_sub_test h hrr false a b
    refine ⟨h', hrun, ?_⟩
    rwa [cond_false, bne, Bool.not_not] at hsets
  | TOK_NE => exact run_sub_test h hrr true a b
  | _ => exact absurd hop (by decide)

/-- The code of every operator the generator implements sets `d` to
    `opil_value` of its operands and leaves the other registers alone. -/
theorem opil_code_run (op : Op) (ll : Bool) {d : BitVec 5} (hd : d ≠ 0#5) (a b : BitVec 5)
    (h : Hart) (hland : op ≠ TOK_LAND) (hlor : op ≠ TOK_LOR) :
    ∃ ws h', opil_code op ll d a b = some ws ∧ run ws h = some h' ∧
      Sets h d (opil_value op ll (h.get a) (h.get b)) h' := by
  by_cases hop : op.isCmp = true
  · obtain ⟨h', hrun, hsets⟩ := load_cmp_run h hd op hop a b
    refine ⟨load_cmp d op a b, h', ?_, hrun, ?_⟩
    · simp only [opil_code, gen_opil_reg_cmp op ll d a b hop, List.nil_append]
    · simpa only [opil_value, hop, if_true] using hsets
  · obtain ⟨w, hgen, hexec⟩ := gen_opil_reg_alu op ll d a b h (Bool.not_eq_true _ ▸ hop) hland hlor
    refine ⟨[w], _, ?_, ?_, Sets.set_next h hd _⟩
    · simp only [opil_code, hgen]
    · rw [run_cons, hexec, Option.bind_some, run_nil]

end tcc.riscv64
