import Tcc.Asm.Encoding

open machine.rv64 tcc.riscv64

namespace tcc.asm

section

variable (f3 : BitVec 3) (d a b : BitVec 5) (f7 : BitVec 7) (op : BitVec 7) (v : BitVec 64)
  (imm : BitVec 32)

theorem wordS_fields : opcode (wordS f3 a b v) = 0x23#7 ∧ funct3 (wordS f3 a b v) = f3 ∧
    rs1 (wordS f3 a b v) = a ∧ rs2 (wordS f3 a b v) = b := by
  refine ⟨?_, ?_, ?_, ?_⟩ <;> ext i hi <;> interval_cases i <;>
    simp [wordS, opcode, funct3, rs1, rs2]

theorem immS_wordS : immS (wordS f3 a b v) = (v.setWidth 12).signExtend 64 := by
  rw [immS]
  congr 1
  ext i hi
  interval_cases i <;> simp [wordS]

theorem wordB_fields : opcode (wordB f3 a b v) = 0x63#7 ∧ funct3 (wordB f3 a b v) = f3 ∧
    rs1 (wordB f3 a b v) = a ∧ rs2 (wordB f3 a b v) = b := by
  refine ⟨?_, ?_, ?_, ?_⟩ <;> ext i hi <;> interval_cases i <;>
    simp [wordB, opcode, funct3, rs1, rs2]

/-- The word of a branch has no place for bit 10 of its offset. -/
theorem immB_wordB : immB (wordB f3 a b v) = ((v &&& ~~~0x401#64).setWidth 13).signExtend 64 := by
  rw [immB]
  congr 1
  ext i hi
  interval_cases i <;> simp [wordB]

theorem wordU_fields : opcode (wordU op d v) = op ∧ rd (wordU op d v) = d ∧
    upper20 (wordU op d v) = v.setWidth 20 := by
  refine ⟨?_, ?_, ?_⟩ <;> ext i hi <;> interval_cases i <;> simp [wordU, opcode, rd, upper20]

theorem immI_EIu : immI (EIu op f3 d a imm) = (imm.setWidth 12).signExtend 64 := by
  rw [immI, imm_EIu]

theorem shift_fields_EIu : funct6 (EIu op f3 d a imm) = (imm >>> 6).setWidth 6 ∧
    shamt6 (EIu op f3 d a imm) = imm.setWidth 6 ∧ funct7 (EIu op f3 d a imm) = (imm >>> 5).setWidth 7 ∧
    rs2 (EIu op f3 d a imm) = imm.setWidth 5 := by
  refine ⟨?_, ?_, ?_, ?_⟩ <;> ext i hi <;> interval_cases i <;>
    simp [EIu, funct6, shamt6, funct7, rs2]

end

variable {m : Mnemonic}

theorem decode_r (hshape : m.shape = .r) (d a b : BitVec 5) :
    ∃ op f3 f7, encoding m = .r op f3 f7 ∧
      (decode (ER op f3 d a b f7) = some (.r m d a b) ↔ m ≠ .srl ∧ m ≠ .sraw) := by
  cases m <;> cases hshape <;> exact ⟨_, _, _, rfl, by simp [decode, regOp, regOpW]⟩

theorem decode_i (hshape : m.shape = .i) : ∃ op f3, encoding m = .i op f3 0#32 ∧ ∀ d a imm,
    decode (EIu op f3 d a imm) = some (.i m d a ((imm.setWidth 12).signExtend 64).toInt) := by
  cases m <;> cases hshape <;> refine ⟨_, _, rfl, fun d a imm => ?_⟩ <;>
    simp only [decode, opcode_EIu, funct3_EIu, rd_EIu, rs1_EIu, immI_EIu] <;> rfl

theorem decode_s (hshape : m.shape = .s) : ∃ f3, encoding m = .s f3 ∧ ∀ a b v,
    decode (wordS f3 a b v) = some (.s m a b ((v.setWidth 12).signExtend 64).toInt) := by
  cases m <;> cases hshape <;> refine ⟨_, rfl, fun a b v => ?_⟩ <;>
    simp only [decode, wordS_fields, immS_wordS] <;> rfl

theorem decode_b (hshape : m.shape = .b) : ∃ f3, encoding m = .b f3 ∧ ∀ a b v,
    decode (wordB f3 a b v) =
      some (.b m a b (((v &&& ~~~0x401#64).setWidth 13).signExtend 64).toInt) := by
  cases m <;> cases hshape <;> refine ⟨_, rfl, fun a b v => ?_⟩ <;>
    simp only [decode, wordB_fields, immB_wordB] <;> rfl

theorem decode_u (hshape : m.shape = .u) : ∃ op, encoding m = .u op ∧ ∀ d v,
    decode (wordU op d v) = some (.u m d (v.setWidth 20).toNat) := by
  cases m <;> cases hshape <;> refine ⟨_, rfl, fun d v => ?_⟩ <;>
    simp only [decode, wordU_fields] <;> rfl

theorem exists_setWidth {n : Nat} (hn : n ≤ 64) {v : BitVec 64} (h : v.toNat < 2 ^ n) :
    ∃ k : BitVec n, v = k.setWidth 64 := by
  refine ⟨v.setWidth n, ?_⟩
  apply BitVec.eq_of_toNat_eq
  rw [BitVec.toNat_setWidth_of_le hn, BitVec.toNat_setWidth, Nat.mod_eq_of_lt h]

theorem amount6 (k : BitVec 6) (hi : BitVec 32) :
    (((k.setWidth 64).setWidth 32 ||| hi) >>> 6).setWidth 6 = (hi >>> 6).setWidth 6 ∧
    ((k.setWidth 64).setWidth 32 ||| hi).setWidth 6 = k ||| hi.setWidth 6 := by
  refine ⟨?_, ?_⟩ <;> ext i hi <;> interval_cases i <;> simp

theorem amount5 (k : BitVec 5) (hi : BitVec 32) :
    (((k.setWidth 64).setWidth 32 ||| hi) >>> 5).setWidth 7 = (hi >>> 5).setWidth 7 ∧
    ((k.setWidth 64).setWidth 32 ||| hi).setWidth 5 = k ||| hi.setWidth 5 := by
  refine ⟨?_, ?_⟩ <;> ext i hi <;> interval_cases i <;> simp

theorem decode_shift6 {f3 : BitVec 3} {hi : BitVec 32} (hf3 : immOp f3 = none)
    (hhi : hi.setWidth 6 = 0#6) (d a : BitVec 5) (k : BitVec 6) :
    decode (EIu 0x13#7 f3 d a ((k.setWidth 64).setWidth 32 ||| hi)) =
      (shiftOp f3 ((hi >>> 6).setWidth 6)).map (.i · d a (k.setWidth 64).toNat) := by
  obtain ⟨h6, hamount, -, -⟩ := shift_fields_EIu f3 d a 0x13#7 ((k.setWidth 64).setWidth 32 ||| hi)
  simp only [decode, opcode_EIu, funct3_EIu, rd_EIu, rs1_EIu, hf3, h6, hamount, amount6, hhi,
    BitVec.or_zero, BitVec.toNat_setWidth_of_le (show 6 ≤ 64 by decide)]
  rfl

theorem decode_shift5 {f3 : BitVec 3} {hi : BitVec 32} (hf3 : f3 ≠ 0#3)
    (hhi : hi.setWidth 5 = 0#5) (d a k : BitVec 5) :
    decode (EIu 0x1b#7 f3 d a ((k.setWidth 64).setWidth 32 ||| hi)) =
      (shiftOpW f3 ((hi >>> 5).setWidth 7)).map (.i · d a (k.setWidth 64).toNat) := by
  obtain ⟨-, -, h7, hamount⟩ := shift_fields_EIu f3 d a 0x1b#7 ((k.setWidth 64).setWidth 32 ||| hi)
  simp only [decode, opcode_EIu, funct3_EIu, rd_EIu, rs1_EIu, if_neg hf3, h7, hamount, amount5, hhi,
    BitVec.or_zero, BitVec.toNat_setWidth_of_le (show 5 ≤ 64 by decide)]
  rfl

/-- The arithmetic right shift of words is emitted as the logical one. -/
theorem decode_sh {bound : Nat} (hshape : m.shape = .sh bound) :
    ∃ op f3 hi, encoding m = .i op f3 hi ∧ ∀ (d a : BitVec 5) (v : BitVec 64), v.toNat < bound →
      (decode (EIu op f3 d a (v.setWidth 32 ||| hi)) = some (.i m d a v.toNat) ↔ m ≠ .sraiw) := by
  cases m <;> cases hshape <;> refine ⟨_, _, _, rfl, fun d a v hv => ?_⟩
  case slli | srli | srai =>
    obtain ⟨k, rfl⟩ := exists_setWidth (n := 6) (by decide) hv
    refine (Eq.congr_left (decode_shift6 (by decide) (by decide) d a k)).trans ?_
    simp [shiftOp]
  all_goals
    obtain ⟨k, rfl⟩ := exists_setWidth (n := 5) (by decide) hv
    refine (Eq.congr_left (decode_shift5 (by decide) (by decide) d a k)).trans ?_
    simp [shiftOpW]

theorem fits12_iff {v : BitVec 64} : Fits12 v ↔ (v.setWidth 12).signExtend 64 = v := by
  rw [machine.signExtend_setWidth_iff (by decide) (by decide)]
  rfl

theorem even_iff {v : BitVec 64} : v.getLsbD 0 = false ↔ v.toInt % 2 = 0 := by
  rw [BitVec.getLsbD, Nat.testBit_zero, BitVec.toInt_eq_toNat_cond]
  have := v.isLt
  simp only [decide_eq_false_iff_not]
  split <;> omega

theorem mask_getLsbD : ∀ i : Fin 64, i.val ≠ 0 → i.val ≠ 10 → (~~~0x401#64).getLsbD i = true := by
  decide

/-- An offset that is even and has no bit 10 survives the immediate of a branch. -/
theorem branch_imm_iff {v : BitVec 64} (heven : v.getLsbD 0 = false)
    (hrange : -4096 ≤ v.toInt ∧ v.toInt < 4096) :
    ((v &&& ~~~0x401#64).setWidth 13).signExtend 64 = v ↔ v.getLsbD 10 = false := by
  constructor
  · intro heq
    rw [← heq, BitVec.getLsbD_signExtend]
    simp
  · intro hbit
    have hmask : v &&& ~~~0x401#64 = v := by
      apply BitVec.eq_of_getLsbD_eq
      intro i hi
      rw [BitVec.getLsbD_and]
      by_cases h0 : i = 0
      · rw [h0, heven, Bool.false_and]
      · by_cases h10 : i = 10
        · rw [h10, hbit, Bool.false_and]
        · rw [mask_getLsbD ⟨i, hi⟩ h0 h10, Bool.and_true]
    rw [hmask, machine.signExtend_setWidth_iff (by decide) (by decide)]
    exact hrange

theorem isIm12s_toInt {v : BitVec 64} (h : isIm12s v) (hrange : -4096 ≤ v.toInt ∧ v.toInt < 4096) :
    Fits12 v := by
  have hint : (v.setWidth 32).toInt = v.toInt := by
    rw [machine.toInt_setWidth_eq_bmod (by decide)]
    apply Int.bmod_eq_of_le_mul_two <;> push_cast <;> omega
  rw [isIm12s, hint] at h
  exact h

section

variable {args : List Arg} {w : Word}

attribute [local simp] emitted in
theorem emitted_r {op : BitVec 7} {f3 : BitVec 3} {f7 : BitVec 7}
    (henc : encoding m = .r op f3 f7) (h : emitted m args = some w) :
    ∃ d a b, args = [.reg d, .reg a, .reg b] ∧ w = ER op f3 d a b f7 := by
  unfold emitted at h
  rw [henc] at h
  split at h <;> simp_all

theorem emitted_i {op : BitVec 7} {f3 : BitVec 3} {hi : BitVec 32}
    (henc : encoding m = .i op f3 hi) (h : emitted m args = some w) :
    ∃ d a v, args = [.reg d, .reg a, .imm v] ∧ isIm12s v ∧
      w = EIu op f3 d a (v.setWidth 32 ||| hi) := by
  unfold emitted at h
  rw [henc] at h
  split at h <;> simp_all

theorem emitted_s {f3 : BitVec 3} (henc : encoding m = .s f3) (h : emitted m args = some w) :
    ∃ a b v, args = [.reg a, .reg b, .imm v] ∧ isIm12s v ∧ w = wordS f3 a b v := by
  unfold emitted at h
  rw [henc] at h
  split at h <;> simp_all

theorem emitted_b {f3 : BitVec 3} (henc : encoding m = .b f3) (h : emitted m args = some w) :
    ∃ a b v, args = [.reg a, .reg b, .imm v] ∧ isIm12s v ∧ v.getLsbD 0 = false ∧
      w = wordB f3 a b v := by
  unfold emitted at h
  rw [henc] at h
  split at h <;> simp_all

theorem emitted_u {op : BitVec 7} (henc : encoding m = .u op) (h : emitted m args = some w) :
    ∃ d v, args = [.reg d, .imm v] ∧ v.toNat < 2 ^ 20 ∧ w = wordU op d v := by
  unfold emitted at h
  rw [henc] at h
  split at h <;> simp_all

attribute [local simp] assemble Sound in
/-- The word emitted for accepted operands decodes to them just when they are sound. -/
theorem emitted_sound (h : emitted m args = some w) :
    (∃ i, assemble m args = some i ∧ decode w = some i) ↔ Sound m args := by
  cases hshape : m.shape with
  | r =>
    obtain ⟨op, f3, f7, henc, -⟩ := decode_r hshape 0 0 0
    obtain ⟨d, a, b, rfl, rfl⟩ := emitted_r henc h
    obtain ⟨_, _, _, henc', hdecode⟩ := decode_r hshape d a b
    cases henc.symm.trans henc'
    simp only [assemble, Sound, hshape, Option.some.injEq, exists_eq_left', hdecode]
  | i =>
    obtain ⟨op, f3, henc, hdecode⟩ := decode_i hshape
    obtain ⟨d, a, v, rfl, him, rfl⟩ := emitted_i henc h
    simp only [assemble, Sound, hshape, him, true_imp_iff, hdecode, BitVec.or_zero,
      BitVec.setWidth_setWidth_of_le v (show 12 ≤ 32 by decide)]
    by_cases hfits : Fits12 v
    · simp only [hfits, if_true, fits12_iff.mp hfits, iff_true]
      exact ⟨_, rfl, rfl⟩
    · simp only [hfits, if_false, reduceCtorEq, false_and, exists_false]
  | sh bound =>
    obtain ⟨op, f3, hi, henc, hdecode⟩ := decode_sh hshape
    obtain ⟨d, a, v, rfl, him, rfl⟩ := emitted_i henc h
    simp only [assemble, Sound, hshape, him, true_imp_iff]
    by_cases hlt : v.toNat < bound
    · simp only [hlt, if_true, Option.some.injEq, exists_eq_left', hdecode d a v hlt, true_and]
    · simp only [hlt, if_false, reduceCtorEq, false_and, exists_false]
  | s =>
    obtain ⟨f3, henc, hdecode⟩ := decode_s hshape
    obtain ⟨a, b, v, rfl, him, rfl⟩ := emitted_s henc h
    simp only [assemble, Sound, hshape, him, true_imp_iff, hdecode]
    by_cases hfits : Fits12 v
    · simp only [hfits, if_true, fits12_iff.mp hfits, iff_true]
      exact ⟨_, rfl, rfl⟩
    · simp only [hfits, if_false, reduceCtorEq, false_and, exists_false]
  | b =>
    obtain ⟨f3, henc, hdecode⟩ := decode_b hshape
    obtain ⟨a, b, v, rfl, him, heven, rfl⟩ := emitted_b henc h
    simp only [assemble, Sound, hshape, him, heven, true_imp_iff, hdecode]
    constructor
    · rintro ⟨i, hsome, heq⟩
      split at hsome
      · rename_i hrange
        cases hsome
        simp only [Option.some.injEq, Instruction.b.injEq, true_and] at heq
        have hrange' := And.intro hrange.1 hrange.2.1
        exact ⟨isIm12s_toInt him hrange',
          (branch_imm_iff heven hrange').mp (BitVec.eq_of_toInt_eq heq)⟩
      · cases hsome
    · rintro ⟨hfits, hbit⟩
      obtain ⟨hlo, hhi⟩ := hfits
      have hrange : -4096 ≤ v.toInt ∧ v.toInt < 4096 := ⟨by omega, by omega⟩
      refine ⟨_, if_pos ⟨hrange.1, hrange.2, even_iff.mp heven⟩, ?_⟩
      rw [(branch_imm_iff heven hrange).mpr hbit]
  | u =>
    obtain ⟨op, henc, hdecode⟩ := decode_u hshape
    obtain ⟨d, v, rfl, hlt, rfl⟩ := emitted_u henc h
    simp only [assemble, Sound, hshape, hdecode, hlt, if_true, iff_true]
    rw [BitVec.toNat_setWidth, Nat.mod_eq_of_lt hlt]
    exact ⟨_, rfl, rfl⟩

/-- Operands that are not accepted meet the condition. -/
theorem sound_of_not_emitted (h : emitted m args = none) : Sound m args := by
  unfold Sound
  split
  · rename_i hshape
    obtain ⟨op, f3, f7, henc, -⟩ := decode_r hshape 0 0 0
    simp [emitted, henc] at h
  · rename_i hshape
    obtain ⟨op, f3, henc, -⟩ := decode_i hshape
    intro him
    simp [emitted, henc, him] at h
  · rename_i hshape
    obtain ⟨op, f3, hi, henc, -⟩ := decode_sh hshape
    intro him
    simp [emitted, henc, him] at h
  · rename_i hshape
    obtain ⟨f3, henc, -⟩ := decode_s hshape
    intro him
    simp [emitted, henc, him] at h
  · rename_i hshape
    obtain ⟨f3, henc, -⟩ := decode_b hshape
    intro him heven
    simp only [emitted, henc, him, heven, and_self, if_true, reduceCtorEq] at h
  · trivial

end

section

variable (asm_expr : List Token → Except Error (ExprValue × List Token))

/-- An instruction encodes its operands just when they are sound: it is not one of
    the three that are emitted as another one, its immediate or shift amount is in
    range as a 64-bit number, and a branch offset has no bit 10. -/
theorem encodesOperands_iff (token : TokAsm) (s : List Token) :
    EncodesOperands asm_expr token s ↔ ∀ m args s', token = .known m →
      readArgs asm_expr m.arity s = some (args, s') → Sound m args := by
  constructor
  · rintro hencodes m args s' rfl hread
    cases hemit : emitted m args with
    | none => exact sound_of_not_emitted hemit
    | some w =>
      obtain ⟨m', args', i, htoken, hread', hi, hdecode⟩ :=
        hencodes w s' (asm_opcode_ok.mpr ⟨args, hread, hemit⟩)
      cases htoken
      cases hread.symm.trans hread'
      exact (emitted_sound hemit).mp ⟨i, hi, hdecode⟩
  · intro hsound w s' hok
    cases token with
    | extra e => exact absurd hok (asm_opcode_extra e)
    | known m =>
      obtain ⟨args, hread, hemit⟩ := asm_opcode_ok.mp hok
      obtain ⟨i, hi, hdecode⟩ := (emitted_sound hemit).mpr (hsound m args s' rfl hread)
      exact ⟨m, args, i, rfl, hread, hi, hdecode⟩

end

/-- A shift right is emitted as an exclusive or. -/
theorem srl_encodes_xor : ¬ ∀ asm_expr token s, EncodesOperands asm_expr token s := by
  intro hall
  have hencodes := hall (fun _ => .error (expect "operand")) (.known .srl)
    [.reg .a0, .comma, .reg .a1, .comma, .reg .a2]
  obtain ⟨m, args, i, htoken, hread, hi, hdecode⟩ := hencodes 0x00c5c533#32 [] rfl
  cases htoken
  cases hread
  cases hi
  revert hdecode
  decide

end tcc.asm
