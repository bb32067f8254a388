import Tcc.Asm.Riscv64

open machine.rv64 tcc.riscv64

namespace tcc.asm

/-- The register a name stands for in the calling convention. -/
def Name.number : Name → Option (BitVec 5)
  | .x n => some (.ofFin n)
  | .zero => some 0 | .ra => some 1 | .sp => some 2 | .gp => some 3 | .tp => some 4
  | .t0 => some 5 | .t1 => some 6 | .t2 => some 7
  | .s0 | .fp => some 8 | .s1 => some 9
  | .a0 => some 10 | .a1 => some 11 | .a2 => some 12 | .a3 => some 13
  | .a4 => some 14 | .a5 => some 15 | .a6 => some 16 | .a7 => some 17
  | .s2 => some 18 | .s3 => some 19 | .s4 => some 20 | .s5 => some 21 | .s6 => some 22
  | .s7 => some 23 | .s8 => some 24 | .s9 => some 25 | .s10 => some 26 | .s11 => some 27
  | .t3 => some 28 | .t4 => some 29 | .t5 => some 30 | .t6 => some 31
  | .pc => none

section

variable (asm_expr : List Token → Except Error (ExprValue × List Token))

def readImm (s : List Token) : Option (Arg × List Token) :=
  match asm_expr s with
  | .ok (⟨v, none⟩, s) => some (.imm v, s)
  | _ => none

/-- An operand of the list: a register, or a constant with or without a dollar. -/
def readArg : List Token → Option (Arg × List Token)
  | .reg name :: s => name.number.map fun r => (.reg r, s)
  | .dollar :: s => readImm asm_expr s
  | s => readImm asm_expr s

/-- Operands between commas. -/
def readArgs : Nat → List Token → Option (List Arg × List Token)
  | 0, s => some ([], s)
  | 1, s => (readArg asm_expr s).map fun p => ([p.1], p.2)
  | n + 2, s =>
    match readArg asm_expr s with
    | some (a, .comma :: s) => (readArgs (n + 1) s).map fun p => (a :: p.1, p.2)
    | _ => none

/-- The instruction encodes its operands: when they are accepted, the format can
    represent them, and the word decodes to the mnemonic with these operands. -/
def EncodesOperands (token : TokAsm) (s : List Token) : Prop :=
  ∀ w s', asm_opcode asm_expr token s = .ok (w, s') → ∃ m args i, token = .known m ∧
    readArgs asm_expr m.arity s = some (args, s') ∧ assemble m args = some i ∧ decode w = some i

end

/-- The condition on the operands of a mnemonic. -/
def Sound (m : Mnemonic) (args : List Arg) : Prop :=
  match m.shape, args with
  | .r, [.reg _, .reg _, .reg _] => m ≠ .srl ∧ m ≠ .sraw
  | .i, [.reg _, .reg _, .imm v] => isIm12s v → Fits12 v
  | .sh bound, [.reg _, .reg _, .imm v] => isIm12s v → v.toNat < bound ∧ m ≠ .sraiw
  | .s, [.reg _, .reg _, .imm v] => isIm12s v → Fits12 v
  | .b, [.reg _, .reg _, .imm v] =>
    isIm12s v → v.getLsbD 0 = false → Fits12 v ∧ v.getLsbD 10 = false
  | _, _ => True

/-- The fields of the words that are emitted for a mnemonic. -/
inductive Encoding where
  | r (op : BitVec 7) (f3 : BitVec 3) (f7 : BitVec 7)
  | i (op : BitVec 7) (f3 : BitVec 3) (hi : BitVec 32)
  | s (f3 : BitVec 3)
  | b (f3 : BitVec 3)
  | u (op : BitVec 7)
  deriving DecidableEq

def encoding : Mnemonic → Encoding
  | .lb => .i 0x03 0 0 | .lh => .i 0x03 1 0 | .lw => .i 0x03 2 0 | .ld => .i 0x03 3 0
  | .lbu => .i 0x03 4 0 | .lhu => .i 0x03 5 0 | .lwu => .i 0x03 6 0
  | .sb => .s 0 | .sh => .s 1 | .sw => .s 2 | .sd => .s 3
  | .beq => .b 0 | .bne => .b 1 | .blt => .b 4 | .bge => .b 5 | .bltu => .b 6 | .bgeu => .b 7
  | .lui => .u 0x37 | .auipc => .u 0x17
  | .addi => .i 0x13 0 0 | .slti => .i 0x13 2 0 | .sltiu => .i 0x13 3 0
  | .xori => .i 0x13 4 0 | .ori => .i 0x13 6 0 | .andi => .i 0x13 7 0
  | .slli => .i 0x13 1 0 | .srli => .i 0x13 5 0 | .srai => .i 0x13 5 0x400
  | .addiw => .i 0x1b 0 0
  | .slliw => .i 0x1b 1 0 | .srliw => .i 0x1b 5 0 | .sraiw => .i 0x1b 5 0
  | .add => .r 0x33 0 0 | .sub => .r 0x33 0 0x20 | .sll => .r 0x33 1 0 | .slt => .r 0x33 2 0
  | .sltu => .r 0x33 3 0 | .xor => .r 0x33 4 0 | .srl => .r 0x33 4 0 | .sra => .r 0x33 5 0x20
  | .or => .r 0x33 6 0 | .and => .r 0x33 7 0
  | .addw => .r 0x3b 0 0 | .subw => .r 0x3b 0 0x20 | .sllw => .r 0x3b 1 0
  | .srlw => .r 0x3b 5 0 | .sraw => .r 0x3b 5 0

def wordS (f3 : BitVec 3) (rs1 rs2 : BitVec 5) (v : BitVec 64) : Word :=
  0x23#32 ||| f3.setWidth 32 <<< 12 ||| rs1.setWidth 32 <<< 15 ||| rs2.setWidth 32 <<< 20 |||
    (v.setWidth 32 &&& 0x1f#32) <<< 7 ||| ((v.setWidth 32 >>> 5) &&& 0x7f#32) <<< 25

def wordB (f3 : BitVec 3) (rs1 rs2 : BitVec 5) (v : BitVec 64) : Word :=
  0x63#32 ||| f3.setWidth 32 <<< 12 ||| rs1.setWidth 32 <<< 15 ||| rs2.setWidth 32 <<< 20 |||
    ((v.setWidth 32 >>> 1) &&& 0xf#32) <<< 8 ||| ((v.setWidth 32 >>> 5) &&& 0x1f#32) <<< 25 |||
    ((v.setWidth 32 >>> 11) &&& 1#32) <<< 7 ||| ((v.setWidth 32 >>> 12) &&& 1#32) <<< 31

def wordU (op : BitVec 7) (rd : BitVec 5) (v : BitVec 64) : Word :=
  op.setWidth 32 ||| rd.setWidth 32 <<< 7 ||| v.setWidth 32 <<< 12

/-- The word emitted for the operands, if they are accepted. -/
def emitted (m : Mnemonic) (args : List Arg) : Option Word :=
  match encoding m, args with
  | .r op f3 f7, [.reg rd, .reg rs1, .reg rs2] => some (ER op f3 rd rs1 rs2 f7)
  | .i op f3 hi, [.reg rd, .reg rs1, .imm v] =>
    if isIm12s v then some (EIu op f3 rd rs1 (v.setWidth 32 ||| hi)) else none
  | .s f3, [.reg rs1, .reg rs2, .imm v] =>
    if isIm12s v then some (wordS f3 rs1 rs2 v) else none
  | .b f3, [.reg rs1, .reg rs2, .imm v] =>
    if isIm12s v ∧ v.getLsbD 0 = false then some (wordB f3 rs1 rs2 v) else none
  | .u op, [.reg rd, .imm v] => if v.toNat < 2 ^ 20 then some (wordU op rd v) else none
  | _, _ => none

/-- How an operand is classified. -/
def operand : Arg → Operand
  | .reg r => .reg r.toFin
  | .imm v => if isIm12s v then .im12s v else .im32 v

theorem asm_parse_regvar_ok {name : Name} {r : Fin 32} :
    asm_parse_regvar name = .ok r ↔ name.number = some (.ofFin r) := by
  cases name with
  | x n =>
    have hn : ¬(TOK_ASM_zero ≤ n.val ∧ n.val ≤ TOK_ASM_t6) := by
      rw [TOK_ASM_zero]
      omega
    have hs0 : n.val ≠ TOK_ASM_s0 := by
      rw [TOK_ASM_s0]
      omega
    have hpc : n.val ≠ TOK_ASM_pc := by
      rw [TOK_ASM_pc]
      omega
    simp [asm_parse_regvar, Name.index, Name.number, hn, hs0, hpc, TOK_ASM_x0]
  | pc => simp [asm_parse_regvar, Name.index, Name.number, TOK_ASM_zero, TOK_ASM_t6, TOK_ASM_s0,
      TOK_ASM_pc]
  | _ =>
    revert r
    decide

section

variable {asm_expr : List Token → Except Error (ExprValue × List Token)}

attribute [local simp] operand in
theorem constant_operand_ok {s s' : List Token} {o : Operand} :
    constant_operand asm_expr s = .ok (o, s') ↔
      ∃ a, readImm asm_expr s = some (a, s') ∧ o = operand a := by
  rw [constant_operand, bind_ok, readImm]
  constructor
  · rintro ⟨⟨⟨v, sym⟩, s₁⟩, hexpr, hmatch⟩
    cases sym with
    | none =>
      cases hmatch
      rw [hexpr]
      exact ⟨.imm v, rfl, rfl⟩
    | some _ => cases hmatch
  · rintro ⟨a, hread, rfl⟩
    split at hread
    · rename_i v s₁ hexpr
      cases hread
      exact ⟨_, hexpr, rfl⟩
    · cases hread

@[simp] theorem throw_ok {α : Type} {e : Error} {b : α} :
    (throw e : Except Error α) = .ok b ↔ False := by
  simp [throw, throwThe, MonadExceptOf.throw]

@[simp] theorem pure_ok {α : Type} {a b : α} : (pure a : Except Error α) = .ok b ↔ a = b := by
  simp [pure, Except.pure]

attribute [local simp] readArg in
theorem parse_operand_ok {s s' : List Token} {o : Operand} :
    parse_operand asm_expr s = .ok (o, s') ↔
      ∃ a, readArg asm_expr s = some (a, s') ∧ o = operand a := by
  cases s with
  | nil => exact constant_operand_ok
  | cons t s =>
    cases t with
    | reg name =>
      rw [parse_operand, bind_ok, readArg]
      constructor
      · rintro ⟨r, hr, hpure⟩
        cases hpure
        rw [asm_parse_regvar_ok] at hr
        exact ⟨.reg (.ofFin r), by simp [hr], rfl⟩
      · rintro ⟨a, hread, rfl⟩
        obtain ⟨r, hr, heq⟩ := Option.map_eq_some_iff.mp hread
        cases heq
        exact ⟨r.toFin, asm_parse_regvar_ok.mpr hr, rfl⟩
    | _ => exact constant_operand_ok

theorem comma_ok {s s' : List Token} : comma s = .ok s' ↔ s = .comma :: s' := by
  unfold comma
  split
  · simp [pure, Except.pure]
  · rename_i hne
    simp only [throw, throwThe, MonadExceptOf.throw, reduceCtorEq, false_iff]
    exact hne s'

attribute [local simp] readArgs in
theorem readArgs_succ {n : Nat} {s s' : List Token} {a : Arg} {args : List Arg} :
    readArgs asm_expr (n + 2) s = some (a :: args, s') ↔ ∃ s₁,
      readArg asm_expr s = some (a, .comma :: s₁) ∧
      readArgs asm_expr (n + 1) s₁ = some (args, s') := by
  rw [readArgs]
  constructor
  · intro h
    split at h
    · rename_i b s₁ hread
      obtain ⟨p, hp, heq⟩ := Option.map_eq_some_iff.mp h
      cases heq
      exact ⟨s₁, hread, hp⟩
    · cases h
  · rintro ⟨s₁, hread, hp⟩
    simp only [hread, hp, Option.map_some]

theorem readArgs_one {s s' : List Token} {args : List Arg} :
    readArgs asm_expr 1 s = some (args, s') ↔
      ∃ a, args = [a] ∧ readArg asm_expr s = some (a, s') := by
  rw [readArgs, Option.map_eq_some_iff]
  constructor
  · rintro ⟨⟨a, s₁⟩, hread, heq⟩
    cases heq
    exact ⟨a, rfl, hread⟩
  · rintro ⟨a, rfl, hread⟩
    exact ⟨(a, s'), hread, rfl⟩

theorem readArgs_length {n : Nat} {s s' : List Token} {args : List Arg}
    (h : readArgs asm_expr n s = some (args, s')) : args.length = n := by
  induction n generalizing s args with
  | zero =>
    cases h
    rfl
  | succ n ih =>
    cases n with
    | zero =>
      obtain ⟨a, rfl, -⟩ := readArgs_one.mp h
      rfl
    | succ n =>
      cases args with
      | nil =>
        rw [readArgs] at h
        split at h
        · obtain ⟨p, -, heq⟩ := Option.map_eq_some_iff.mp h
          cases heq
        · cases h
      | cons a args =>
        obtain ⟨s₁, -, hrest⟩ := readArgs_succ.mp h
        rw [List.length_cons, ih hrest]

end

/-- The functions with three operands, with their check of the first two. -/
def three_operands {α : Type} (asm_expr : List Token → Except Error (ExprValue × List Token))
    (check : Operand → Except Error α)
    (emit : α → α → Operand → Operand → Operand → Except Error Word) (s : List Token) :
    Except Error (Word × List Token) := do
  let (o₀, s) ← parse_operand asm_expr s
  let r₀ ← check o₀
  let s ← comma s
  let (o₁, s) ← parse_operand asm_expr s
  let r₁ ← check o₁
  let s ← comma s
  let (o₂, s) ← parse_operand asm_expr s
  let w ← emit r₀ r₁ o₀ o₁ o₂
  return (w, s)

theorem three_operands_ok {α : Type}
    {asm_expr : List Token → Except Error (ExprValue × List Token)}
    {check : Operand → Except Error α}
    {emit : α → α → Operand → Operand → Operand → Except Error Word} {s s' : List Token}
    {w : Word} : three_operands asm_expr check emit s = .ok (w, s') ↔
    ∃ a₀ a₁ a₂, readArgs asm_expr 3 s = some ([a₀, a₁, a₂], s') ∧
      ∃ r₀ r₁, check (operand a₀) = .ok r₀ ∧ check (operand a₁) = .ok r₁ ∧
        emit r₀ r₁ (operand a₀) (operand a₁) (operand a₂) = .ok w := by
  simp only [three_operands, bind_ok, Prod.exists, parse_operand_ok, comma_ok, readArgs_succ,
    Nat.reduceAdd, readArgs_one, List.cons.injEq, and_true]
  constructor
  · rintro ⟨o₀, s₁, ⟨a₀, hread₀, rfl⟩, r₀, hcheck₀, s₂, rfl, o₁, s₃, ⟨a₁, hread₁, rfl⟩, r₁, hcheck₁,
      s₄, rfl, o₂, s₅, ⟨a₂, hread₂, rfl⟩, w', hemit, heq⟩
    cases heq
    exact ⟨a₀, a₁, a₂, ⟨s₂, hread₀, s₄, hread₁, a₂, rfl, hread₂⟩, r₀, r₁, hcheck₀, hcheck₁, hemit⟩
  · rintro ⟨a₀, a₁, a₂, ⟨s₂, hread₀, s₄, hread₁, _, rfl, hread₂⟩, r₀, r₁, hcheck₀, hcheck₁, hemit⟩
    exact ⟨_, _, ⟨a₀, hread₀, rfl⟩, r₀, hcheck₀, s₂, rfl, _, _, ⟨a₁, hread₁, rfl⟩, r₁, hcheck₁, s₄,
      rfl, _, _, ⟨a₂, hread₂, rfl⟩, w, hemit, rfl⟩

theorem ENCODE_RD_eq (r : BitVec 5) : ENCODE_RD r.toFin = r.setWidth 32 <<< 7 := by
  simp [ENCODE_RD]

theorem ENCODE_RS1_eq (r : BitVec 5) : ENCODE_RS1 r.toFin = r.setWidth 32 <<< 15 := by
  simp [ENCODE_RS1]

theorem ENCODE_RS2_eq (r : BitVec 5) : ENCODE_RS2 r.toFin = r.setWidth 32 <<< 20 := by
  simp [ENCODE_RS2]

theorem setWidth_shiftLeft (v : BitVec 64) {n : Nat} : (v <<< n).setWidth 32 = v.setWidth 32 <<< n := by
  ext i hi
  simp only [BitVec.getElem_setWidth, BitVec.getElem_shiftLeft, BitVec.getLsbD_shiftLeft]
  grind

section

variable {m : Mnemonic} {token : TokAsm} {opc w : Word} {a₀ a₁ a₂ : Arg}

attribute [local simp] emitted in
theorem asm_emit_r_ok {op : BitVec 7} {f3 : BitVec 3} {f7 : BitVec 7}
    (henc : encoding m = .r op f3 f7)
    (hopc : opc = op.setWidth 32 ||| f3.setWidth 32 <<< 12 ||| f7.setWidth 32 <<< 25) :
    asm_emit_r token opc (operand a₀) (operand a₁) (operand a₂) = .ok w ↔
      emitted m [a₀, a₁, a₂] = some w := by
  have hword (rd rs1 rs2 : BitVec 5) :
      opc ||| ENCODE_RD rd.toFin ||| ENCODE_RS1 rs1.toFin ||| ENCODE_RS2 rs2.toFin =
        ER op f3 rd rs1 rs2 f7 := by
    rw [hopc, ENCODE_RD_eq, ENCODE_RS1_eq, ENCODE_RS2_eq, ER]
    generalize op.setWidth 32 = x, f3.setWidth 32 <<< 12 = y, f7.setWidth 32 <<< 25 = z,
      rd.setWidth 32 <<< 7 = d, rs1.setWidth 32 <<< 15 = a, rs2.setWidth 32 <<< 20 = b
    simp only [BitVec.or_assoc, BitVec.or_comm z]
  unfold asm_emit_r emitted
  rw [henc]
  cases a₀ with
  | imm v => by_cases hv : isIm12s v <;> simp [operand, hv]
  | reg rd =>
    cases a₁ with
    | imm v => by_cases hv : isIm12s v <;> simp [operand, hv]
    | reg rs1 =>
      cases a₂ with
      | imm v => by_cases hv : isIm12s v <;> simp [operand, hv]
      | reg rs2 => simp only [operand, hword, pure_ok, Option.some.injEq]

attribute [local simp] asm_emit_i in
theorem asm_emit_i_ok {op : BitVec 7} {f3 : BitVec 3} {hi : BitVec 32}
    (henc : encoding m = .i op f3 hi)
    (hopc : opc = op.setWidth 32 ||| f3.setWidth 32 <<< 12 ||| hi <<< 20) :
    asm_emit_i token opc (operand a₀) (operand a₁) (operand a₂) = .ok w ↔
      emitted m [a₀, a₁, a₂] = some w := by
  have hword (rd rs1 : BitVec 5) (v : BitVec 64) :
      (((opc ||| ENCODE_RD rd.toFin ||| ENCODE_RS1 rs1.toFin).setWidth 64) ||| v <<< 20).setWidth 32 =
        EIu op f3 rd rs1 (v.setWidth 32 ||| hi) := by
    rw [hopc, ENCODE_RD_eq, ENCODE_RS1_eq, EIu, BitVec.setWidth_or, setWidth_shiftLeft,
      BitVec.setWidth_setWidth_of_le _ (by decide), BitVec.setWidth_eq, BitVec.shiftLeft_or_distrib]
    generalize op.setWidth 32 = x, f3.setWidth 32 <<< 12 = y, hi <<< 20 = z,
      rd.setWidth 32 <<< 7 = d, rs1.setWidth 32 <<< 15 = a, v.setWidth 32 <<< 20 = b
    simp only [BitVec.or_assoc, BitVec.or_comm z]
  unfold asm_emit_i emitted
  rw [henc]
  cases a₀ with
  | imm v => by_cases hv : isIm12s v <;> simp [operand, hv]
  | reg rd =>
    cases a₁ with
    | imm v => by_cases hv : isIm12s v <;> simp [operand, hv]
    | reg rs1 =>
      cases a₂ with
      | imm v =>
        by_cases hv : isIm12s v
        · simp only [operand, if_pos hv, hword, pure_ok, Option.some.injEq]
        · simp [operand, hv]
      | reg rs2 => simp [operand]

theorem asm_emit_s_ok {f3 : BitVec 3} (henc : encoding m = .s f3)
    (hopc : opc = 0x23#32 ||| f3.setWidth 32 <<< 12) :
    asm_emit_s token opc (operand a₀) (operand a₁) (operand a₂) = .ok w ↔
      emitted m [a₀, a₁, a₂] = some w := by
  have hlow (v : BitVec 64) : (v.setWidth 16).setWidth 32 &&& 0x1f#32 = v.setWidth 32 &&& 0x1f#32 := by
    ext i hi
    interval_cases i <;> simp
  have hhigh (v : BitVec 64) : ((v.setWidth 16).setWidth 32 >>> 5) <<< 25 =
      ((v.setWidth 32 >>> 5) &&& 0x7f#32) <<< 25 := by
    ext i hi
    interval_cases i <;> simp
  have hword (rs1 rs2 : BitVec 5) (v : BitVec 64) :
      opc ||| ENCODE_RS1 rs1.toFin ||| ENCODE_RS2 rs2.toFin |||
        ((v.setWidth 16).setWidth 32 &&& 0x1f#32) <<< 7 |||
        ((v.setWidth 16).setWidth 32 >>> 5) <<< 25 = wordS f3 rs1 rs2 v := by
    rw [hopc, ENCODE_RS1_eq, ENCODE_RS2_eq, hlow, hhigh, wordS]
  unfold asm_emit_s emitted
  rw [henc]
  cases a₀ with
  | imm v => by_cases hv : isIm12s v <;> simp [operand, hv]
  | reg rs1 =>
    cases a₁ with
    | imm v => by_cases hv : isIm12s v <;> simp [operand, hv]
    | reg rs2 =>
      cases a₂ with
      | imm v =>
        by_cases hv : isIm12s v
        · simp only [operand, if_pos hv, hword, pure_ok, Option.some.injEq]
        · simp [operand, hv]
      | reg r => simp [operand]

attribute [local simp] asm_emit_u in
theorem asm_emit_u_ok {op : BitVec 7} (henc : encoding m = .u op) (hopc : opc = op.setWidth 32) :
    asm_emit_u token opc (operand a₀) (operand a₁) = .ok w ↔ emitted m [a₀, a₁] = some w := by
  have hword (rd : BitVec 5) (v : BitVec 64) :
      (((opc ||| ENCODE_RD rd.toFin).setWidth 64) ||| v <<< 12).setWidth 32 = wordU op rd v := by
    rw [hopc, ENCODE_RD_eq, wordU, BitVec.setWidth_or, setWidth_shiftLeft,
      BitVec.setWidth_setWidth_of_le _ (by decide), BitVec.setWidth_eq]
  have hrange (v : BitVec 64) : v ≥ 0x100000#64 ↔ ¬ v.toNat < 2 ^ 20 := by
    rw [ge_iff_le, BitVec.le_def]
    exact not_lt.symm
  unfold asm_emit_u emitted
  rw [henc]
  cases a₀ with
  | imm v => by_cases hv : isIm12s v <;> simp [operand, hv]
  | reg rd =>
    cases a₁ with
    | reg r => simp [operand]
    | imm v =>
      by_cases hv : isIm12s v <;> by_cases hlt : v.toNat < 2 ^ 20 <;>
        simp only [operand, hv, hrange, hlt, if_true, if_false, hword, pure_ok, throw_ok,
          not_true_eq_false, not_false_eq_true, Option.some.injEq, reduceCtorEq]

theorem branch_opcode_im12s {f3 : BitVec 3} (henc : encoding m = .b f3) (rs1 rs2 : BitVec 5)
    (v : BitVec 64) : branch_opcode (.known m) rs1.toFin rs2.toFin (.im12s v) = .ok w ↔
      v.getLsbD 0 = false ∧ wordB f3 rs1 rs2 v = w := by
  have hodd : v.setWidth 32 &&& 1#32 ≠ 0#32 ↔ v.getLsbD 0 = true := by
    constructor
    · intro hne
      by_contra hfalse
      refine hne ?_
      ext i hi
      interval_cases i <;> simp_all
    · intro htrue hzero
      have hbit := congrArg (BitVec.getLsbD · 0) hzero
      rw [BitVec.getLsbD_and, BitVec.getLsbD_setWidth, htrue] at hbit
      exact absurd hbit (by decide)
  have hword {opc : Word} (hopc : opc = 0x63#32 ||| f3.setWidth 32 <<< 12) :
      opc ||| ENCODE_RS1 rs1.toFin ||| ENCODE_RS2 rs2.toFin |||
        ((v.setWidth 32 >>> 1) &&& 0xf#32) <<< 8 ||| ((v.setWidth 32 >>> 5) &&& 0x1f#32) <<< 25 |||
        ((v.setWidth 32 >>> 11) &&& 1#32) <<< 7 ||| ((v.setWidth 32 >>> 12) &&& 1#32) <<< 31 =
      wordB f3 rs1 rs2 v := by
    rw [hopc, ENCODE_RS1_eq, ENCODE_RS2_eq, wordB]
  cases heven : v.getLsbD 0 with
  | true =>
    simp only [branch_opcode, if_pos (hodd.mpr heven), throw_ok, Bool.true_eq_false, false_and]
  | false =>
    have hnot : ¬ (v.setWidth 32 &&& 1#32 ≠ 0#32) := by
      rw [hodd, heven]
      exact Bool.false_ne_true
    simp only [branch_opcode, if_neg hnot, true_and]
    cases m <;> cases henc <;> simp only [pure_bind, pure_ok] <;>
      exact Eq.congr_left (hword (by decide))

theorem branch_opcode_ok {f3 : BitVec 3} (henc : encoding m = .b f3) :
    (∃ rs1 rs2, register (operand a₀) = .ok rs1 ∧ register (operand a₁) = .ok rs2 ∧
      branch_opcode (.known m) rs1 rs2 (operand a₂) = .ok w) ↔
      emitted m [a₀, a₁, a₂] = some w := by
  unfold emitted
  rw [henc]
  cases a₀ with
  | imm v => by_cases hv : isIm12s v <;> simp [operand, hv, register]
  | reg rs1 =>
    cases a₁ with
    | imm v => by_cases hv : isIm12s v <;> simp [operand, hv, register]
    | reg rs2 =>
      cases a₂ with
      | reg r => simp [operand, register, branch_opcode]
      | imm v =>
        by_cases hv : isIm12s v
        · simp only [operand, register, pure_ok, if_pos hv]
          constructor
          · rintro ⟨_, _, rfl, rfl, hbranch⟩
            obtain ⟨heven, rfl⟩ := (branch_opcode_im12s henc rs1 rs2 v).mp hbranch
            simp only [hv, heven, and_self, if_true]
          · intro hsome
            split at hsome
            · rename_i hcond
              cases hsome
              exact ⟨_, _, rfl, rfl, (branch_opcode_im12s henc rs1 rs2 v).mpr ⟨hcond.2, rfl⟩⟩
            · cases hsome
        · simp [operand, hv, register, branch_opcode]

end

section

variable {asm_expr : List Token → Except Error (ExprValue × List Token)}
  {m : Mnemonic} {token : TokAsm} {s s' : List Token} {w : Word}

theorem three_args_ok {α : Type} {check : Operand → Except Error α}
    {emit : α → α → Operand → Operand → Operand → Except Error Word} (harity : m.arity = 3)
    (hswitch : ∀ {a₀ a₁ a₂ w}, (∃ r₀ r₁, check (operand a₀) = .ok r₀ ∧ check (operand a₁) = .ok r₁ ∧
      emit r₀ r₁ (operand a₀) (operand a₁) (operand a₂) = .ok w) ↔
      emitted m [a₀, a₁, a₂] = some w) :
    three_operands asm_expr check emit s = .ok (w, s') ↔
      ∃ args, readArgs asm_expr m.arity s = some (args, s') ∧ emitted m args = some w := by
  rw [three_operands_ok, harity]
  constructor
  · rintro ⟨a₀, a₁, a₂, hread, hemit⟩
    exact ⟨_, hread, hswitch.mp hemit⟩
  · rintro ⟨args, hread, hemit⟩
    obtain ⟨a₀, a₁, a₂, rfl⟩ := List.length_eq_three.mp (readArgs_length hread)
    exact ⟨a₀, a₁, a₂, hread, hswitch.mpr hemit⟩

theorem asm_shift_opcode_ok (harity : m.arity = 3)
    (hswitch : ∀ {a₀ a₁ a₂ w}, shift_opcode token (operand a₀) (operand a₁) (operand a₂) = .ok w ↔
      emitted m [a₀, a₁, a₂] = some w) :
    asm_shift_opcode asm_expr token s = .ok (w, s') ↔
      ∃ args, readArgs asm_expr m.arity s = some (args, s') ∧ emitted m args = some w :=
  @three_args_ok _ _ _ _ _ _ (fun _ => .ok ()) (fun _ _ => shift_opcode token) harity
    ⟨fun ⟨_, _, _, _, hemit⟩ => hswitch.mp hemit, fun hemit => ⟨(), (), rfl, rfl, hswitch.mpr hemit⟩⟩

theorem asm_data_processing_opcode_ok (harity : m.arity = 3)
    (hswitch : ∀ {a₀ a₁ a₂ w}, data_processing_opcode token (operand a₀) (operand a₁) (operand a₂) =
      .ok w ↔ emitted m [a₀, a₁, a₂] = some w) :
    asm_data_processing_opcode asm_expr token s = .ok (w, s') ↔
      ∃ args, readArgs asm_expr m.arity s = some (args, s') ∧ emitted m args = some w :=
  @three_args_ok _ _ _ _ _ _ (fun _ => .ok ()) (fun _ _ => data_processing_opcode token) harity
    ⟨fun ⟨_, _, _, _, hemit⟩ => hswitch.mp hemit, fun hemit => ⟨(), (), rfl, rfl, hswitch.mpr hemit⟩⟩

theorem emitted_registers {a₀ a₁ a₂ : Arg} (h : emitted m [a₀, a₁, a₂] = some w) :
    ∃ r₀ r₁, register (operand a₀) = .ok r₀ ∧ register (operand a₁) = .ok r₁ := by
  unfold emitted at h
  split at h <;> simp_all [operand, register]

theorem asm_data_transfer_opcode_ok (harity : m.arity = 3)
    (hswitch : ∀ {a₀ a₁ a₂ w}, data_transfer_opcode token (operand a₀) (operand a₁) (operand a₂) =
      .ok w ↔ emitted m [a₀, a₁, a₂] = some w) :
    asm_data_transfer_opcode asm_expr token s = .ok (w, s') ↔
      ∃ args, readArgs asm_expr m.arity s = some (args, s') ∧ emitted m args = some w := by
  refine @three_args_ok _ _ _ _ _ _ register (fun _ _ => data_transfer_opcode token) harity
    ⟨fun ⟨_, _, _, _, hemit⟩ => hswitch.mp hemit, fun hemit => ?_⟩
  obtain ⟨r₀, r₁, hr₀, hr₁⟩ := emitted_registers hemit
  exact ⟨r₀, r₁, hr₀, hr₁, hswitch.mpr hemit⟩

theorem asm_branch_opcode_ok (harity : m.arity = 3) {f3 : BitVec 3} (henc : encoding m = .b f3) :
    asm_branch_opcode asm_expr (.known m) s = .ok (w, s') ↔
      ∃ args, readArgs asm_expr m.arity s = some (args, s') ∧ emitted m args = some w :=
  @three_args_ok _ _ _ _ _ _ register (fun rs1 rs2 _ _ o₂ => branch_opcode (.known m) rs1 rs2 o₂) harity
    (branch_opcode_ok henc)

theorem asm_binary_opcode_ok (harity : m.arity = 2)
    (hswitch : ∀ {a₀ a₁ w}, binary_opcode token (operand a₀) (operand a₁) = .ok w ↔
      emitted m [a₀, a₁] = some w) :
    asm_binary_opcode asm_expr token s = .ok (w, s') ↔
      ∃ args, readArgs asm_expr m.arity s = some (args, s') ∧ emitted m args = some w := by
  rw [harity]
  simp only [asm_binary_opcode, bind_ok, Prod.exists, parse_operand_ok, comma_ok]
  constructor
  · rintro ⟨o₀, s₁, ⟨a₀, hread₀, rfl⟩, s₂, rfl, o₁, s₃, ⟨a₁, hread₁, rfl⟩, w', hemit, heq⟩
    cases heq
    exact ⟨[a₀, a₁], readArgs_succ.mpr ⟨s₂, hread₀, readArgs_one.mpr ⟨a₁, rfl, hread₁⟩⟩,
      hswitch.mp hemit⟩
  · rintro ⟨args, hread, hemit⟩
    obtain ⟨a₀, a₁, rfl⟩ := List.length_eq_two.mp (readArgs_length hread)
    obtain ⟨s₂, hread₀, hrest⟩ := readArgs_succ.mp hread
    obtain ⟨_, heq, hread₁⟩ := readArgs_one.mp hrest
    cases heq
    exact ⟨_, _, ⟨a₀, hread₀, rfl⟩, s₂, rfl, _, _, ⟨a₁, hread₁, rfl⟩, w, hswitch.mpr hemit, rfl⟩

/-- What an instruction accepts and emits, for every mnemonic. -/
theorem asm_opcode_ok : asm_opcode asm_expr (.known m) s = .ok (w, s') ↔
    ∃ args, readArgs asm_expr m.arity s = some (args, s') ∧ emitted m args = some w := by
  cases m with
  | lui | auipc => exact asm_binary_opcode_ok rfl (asm_emit_u_ok rfl (by decide))
  | sll | srl | sra | sllw | srlw | sraw =>
    exact asm_shift_opcode_ok rfl (asm_emit_r_ok rfl (by decide))
  | slli | srli | srai | slliw | srliw | sraiw =>
    exact asm_shift_opcode_ok rfl (asm_emit_i_ok rfl (by decide))
  | add | sub | addw | subw | xor | or | and | slt | sltu =>
    exact asm_data_processing_opcode_ok rfl (asm_emit_r_ok rfl (by decide))
  | addi | addiw | xori | ori | andi | slti | sltiu =>
    exact asm_data_processing_opcode_ok rfl (asm_emit_i_ok rfl (by decide))
  | lb | lh | lw | ld | lbu | lhu | lwu =>
    exact asm_data_transfer_opcode_ok rfl (asm_emit_i_ok rfl (by decide))
  | sb | sh | sw | sd => exact asm_data_transfer_opcode_ok rfl (asm_emit_s_ok rfl (by decide))
  | beq | bne | blt | bge | bltu | bgeu => exact asm_branch_opcode_ok rfl rfl

/-- The other names of the token table are never accepted. -/
theorem asm_opcode_extra (e : Extra) : asm_opcode asm_expr (.extra e) s ≠ .ok (w, s') := by
  have hshift : asm_shift_opcode asm_expr (.extra e) s ≠ .ok (w, s') := by
    intro h
    obtain ⟨_, _, _, _, _, _, _, _, hemit⟩ := (@three_operands_ok _ _ (fun _ => .ok ())
      (fun _ _ => shift_opcode (.extra e)) _ _ _).mp h
    cases hemit
  have hprocess : asm_data_processing_opcode asm_expr (.extra e) s ≠ .ok (w, s') := by
    intro h
    obtain ⟨_, _, _, _, _, _, _, _, hemit⟩ := (@three_operands_ok _ _ (fun _ => .ok ())
      (fun _ _ => data_processing_opcode (.extra e)) _ _ _).mp h
    cases hemit
  cases e with
  | slld | sllid | srld | srlid | srad | sraid => exact hshift
  | addd | addid | subd => exact hprocess

end

end tcc.asm
