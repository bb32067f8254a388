import Tcc.Gen.Riscv64.Access
import Tcc.Gen.Riscv64.Constant

open machine.rv64

/-! Which registers the code of `load` and `store` changes. -/

namespace tcc.riscv64.treg

open BType

theorem is_freg_eq (r : Treg) : is_freg r = !is_ireg r := by
  revert r
  decide

theorem rr_ne_zero (r : Treg) : rr r ≠ 0#5 := by
  revert r
  decide

theorem rr_ne_five (r : Treg) : rr r ≠ 5#5 := by
  revert r
  decide

theorem rr_ne_eight (r : Treg) : rr r ≠ 8#5 := by
  revert r
  decide

theorem name_of_ireg {r : Treg} (h : is_ireg r = true) : name r = .x (rr r) := if_pos h

theorem name_of_freg {r : Treg} (h : is_ireg r = false) : name r = .f (rr r) := if_neg (by simp [h])

/-- For the integer registers these are the loads of the integer part. -/
theorem load_lval_ireg {r : Treg} (h : is_ireg r = true) (t : Scalar) (a : Addr) :
    load_lval r t a = riscv64.load_lval (rr r) t a := by
  have hfreg : is_freg r = false := by rw [is_freg_eq, h]; rfl
  cases a <;> simp [load_lval, riscv64.load_lval, hfreg, h, scratch]

theorem changesOnly_float_load {f3 : BitVec 3} {d a : BitVec 5} {imm : BitVec 32} {w : Word}
    (hw : EI 0x07#7 f3 d a imm = some w) (hf3 : f3 = 2#3 ∨ f3 = 3#3) : ChangesOnly {.f d} [w] := by
  intro s
  obtain ⟨v, hv⟩ : ∃ v, floatValue f3 s.mem (s.get a + imm.signExtend 64) = some v := by
    obtain rfl | rfl := hf3 <;> exact ⟨_, rfl⟩
  refine ⟨_, by rw [runF_cons, execF_load hw hv, Option.bind_some, runF_nil], fun q hq => ?_⟩
  cases q with
  | x q => rfl
  | f q =>
    have hne : q ≠ d := fun heq => hq (by rw [heq]; exact Set.mem_singleton _)
    exact Function.update_of_ne hne _ _

theorem changesOnly_store {f3 : BitVec 3} {a b : BitVec 5} {imm : BitVec 32} {w : Word}
    (hw : ES 0x23#7 f3 a b imm = some w) (hf3 : f3.toNat < 4) : ChangesOnly ∅ [w] := by
  intro s
  refine ⟨_, by rw [runF_cons, execF_of_exec (exec_store hw hf3 s.toHart), Option.bind_some, runF_nil],
    fun q _ => ?_⟩
  cases q <;> rfl

theorem changesOnly_float_store {f3 : BitVec 3} {a b : BitVec 5} {imm : BitVec 32} {w : Word}
    (hw : ES 0x27#7 f3 a b imm = some w) (hf3 : f3 = 2#3 ∨ f3 = 3#3) : ChangesOnly ∅ [w] := by
  intro s
  refine ⟨_, by rw [runF_cons, execF_store hw hf3 s, Option.bind_some, runF_nil], fun q _ => ?_⟩
  cases q <;> rfl

theorem execF_move (f3 : BitVec 3) (d a b : BitVec 5) (f7 : BitVec 7) (s : FHart) :
    execF (ER 0x53#7 f3 d a b f7) s = execMove (ER 0x53#7 f3 d a b f7) s := by
  simp [execF]

theorem changesOnly_setF {d : BitVec 5} {w : Word}
    (hw : ∀ s, ∃ v, execF w s = some ((s.setF d v).withHart s.next)) : ChangesOnly {.f d} [w] := by
  intro s
  obtain ⟨v, hv⟩ := hw s
  refine ⟨_, by rw [runF_cons, hv, Option.bind_some, runF_nil], fun q hq => ?_⟩
  cases q with
  | x q => rfl
  | f q =>
    have hne : q ≠ d := fun heq => hq (by rw [heq]; exact Set.mem_singleton _)
    exact Function.update_of_ne hne _ _

theorem changesOnly_set {d : BitVec 5} {w : Word}
    (hw : ∀ s, ∃ v, execF w s = some (s.withHart (s.set d v).next)) : ChangesOnly {.x d} [w] := by
  intro s
  obtain ⟨v, hv⟩ := hw s
  refine ⟨_, by rw [runF_cons, hv, Option.bind_some, runF_nil], fun q hq => ?_⟩
  cases q with
  | x q =>
    have hne : q ≠ d := fun heq => hq (by rw [heq]; exact Set.mem_singleton _)
    exact s.toHart.get_set_of_ne hne v
  | f q => rfl

theorem changesOnly_sgnj (d a : BitVec 5) {f7 : BitVec 7} (hf7 : f7 = 0x10#7 ∨ f7 = 0x11#7) :
    ChangesOnly {.f d} [ER 0x53#7 0 d a a f7] := by
  refine changesOnly_setF fun s => ?_
  rw [execF_move, execMove]
  simp only [funct7_ER, funct3_ER, rs1_ER, rs2_ER, rd_ER]
  obtain rfl | rfl := hf7
  · exact ⟨_, rfl⟩
  · exact ⟨_, rfl⟩

theorem changesOnly_to_int (d a : BitVec 5) {f7 : BitVec 7} (hf7 : f7 = 0x70#7 ∨ f7 = 0x71#7) :
    ChangesOnly {.x d} [ER 0x53#7 0 d a 0 f7] := by
  refine changesOnly_set fun s => ?_
  rw [execF_move, execMove]
  simp only [funct7_ER, funct3_ER, rs1_ER, rs2_ER, rd_ER]
  obtain rfl | rfl := hf7
  · exact ⟨_, rfl⟩
  · exact ⟨_, rfl⟩

theorem changesOnly_to_float (d a : BitVec 5) {f7 : BitVec 7} (hf7 : f7 = 0x78#7 ∨ f7 = 0x79#7) :
    ChangesOnly {.f d} [ER 0x53#7 0 d a 0 f7] := by
  refine changesOnly_setF fun s => ?_
  rw [execF_move, execMove]
  simp only [funct7_ER, funct3_ER, rs1_ER, rs2_ER, rd_ER]
  obtain rfl | rfl := hf7
  · exact ⟨_, rfl⟩
  · exact ⟨_, rfl⟩

theorem float_func3 {t : Scalar} (ht : float_or_double t) : load_func3 t = 2#3 ∨ load_func3 t = 3#3 := by
  obtain ⟨bt, u⟩ := t
  obtain rfl | rfl : bt = VT_FLOAT ∨ bt = VT_DOUBLE := ht
  · cases u <;> exact Or.inl rfl
  · cases u <;> exact Or.inr rfl

theorem scalar_func3 {t : Scalar} (ht : is_scalar t = true) : load_func3 t ≠ 7#3 := by
  obtain ⟨bt, u⟩ := t
  revert ht
  cases bt <;> cases u <;> decide

/-- The value of a floating-point register comes through another register of its number. -/
def Detour (a : Addr) : Prop :=
  match a with
  | .VT_LLOCAL c => (c.setWidth 32).signExtend 64 = c
  | .VT_CONST _ => True
  | _ => False

/-- The cases in which `load` leaves the other registers alone. -/
def load_keeps (r : Treg) (t : Scalar) (sv : Source) : Prop :=
  is_freg r = true →
    match sv with
    | .lval a => float_or_double t → ¬ Detour a
    | .VT_CONST _ => t.bt ≠ VT_LDOUBLE
    | .VT_SYM s => t.bt = VT_LDOUBLE → s.isStatic = false ∧ large (s.c.setWidth 32) = true
    | _ => True

theorem load_lval_ireg_keeps {r : Treg} (h : is_ireg r = true) {t : Scalar} (ht : is_scalar t = true)
    {a : Addr} {ws : List Word} (hws : load_lval r t a = some ws) : ChangesOnly {name r, .x 5} ws := by
  rw [load_lval_ireg h] at hws
  obtain ⟨pre, br, imm, rfl, hpre⟩ := load_lval_shape hws
  rw [name_of_ireg h]
  exact ((hpre.append (writesOnly_load (scalar_func3 ht))).changesOnly).mono (by simp)

theorem load_lval_freg_keeps {r : Treg} (h : is_ireg r = false) {t : Scalar} {a : Addr} {ws : List Word}
    (ha : ¬ Detour a) (hws : load_lval r t a = some ws) : ChangesOnly {name r, .x 5} ws := by
  have hfreg : is_freg r = true := by rw [is_freg_eq, h]; rfl
  unfold load_lval at hws
  rw [Option.ite_none_left_eq_some] at hws
  obtain ⟨ht, hws⟩ := hws
  have ht : float_or_double t := by
    by_contra hnot
    exact ht ⟨hfreg, hnot⟩
  have hscratch : scratch r = 5#5 := by rw [scratch, h]; rfl
  simp only [hfreg, hscratch, if_true] at hws
  rw [name_of_freg h]
  have hload {br : BitVec 5} {fc : BitVec 32} {w : Word}
      (hw : EI 0x07#7 (load_func3 t) (rr r) br fc = some w) : ChangesOnly {.f (rr r), .x 5} [w] :=
    (changesOnly_float_load hw (float_func3 ht)).mono (by simp)
  have hpre {pre : List Word} {br : BitVec 5} {fc : BitVec 32} {a : Addr}
      (hsym : load_symofs 5#5 a = some (pre, br, fc)) : ChangesOnly {.f (rr r), .x 5} pre :=
    ((load_symofs_writesOnly hsym).changesOnly).mono (by simp)
  cases a with
  | VT_LOCAL c =>
    simp only [Option.bind_eq_bind, Option.bind_eq_some_iff, Option.pure_def, Option.some.injEq] at hws
    obtain ⟨⟨pre, br, fc⟩, hsym, w, hw, rfl⟩ := hws
    exact (hpre hsym).append (hload hw)
  | VT_SYM s =>
    simp only [Option.bind_eq_bind, Option.bind_eq_some_iff, Option.pure_def, Option.some.injEq] at hws
    obtain ⟨⟨pre, br, fc⟩, hsym, w, hw, rfl⟩ := hws
    exact (hpre hsym).append (hload hw)
  | reg v =>
    simp only [Option.bind_eq_bind, Option.bind_eq_some_iff, Option.pure_def, Option.some.injEq] at hws
    obtain ⟨w, hw, rfl⟩ := hws
    exact hload hw
  | VT_LLOCAL c =>
    simp only [Option.bind_eq_bind, Option.bind_eq_some_iff] at hws
    obtain ⟨p, hsym, -⟩ := hws
    have hwide : (c.setWidth 32).signExtend 64 ≠ c := ha
    rw [load_symofs, if_pos hwide] at hsym
    cases hsym
  | VT_CONST c => exact absurd trivial ha

theorem cross_move_keeps {r v : Treg} {t : Scalar} {ws : List Word}
    (hws : cross_move r v t = some ws) : ChangesOnly {name r, .x 5} ws := by
  rw [cross_move, Option.ite_none_right_eq_some, Option.some.injEq] at hws
  obtain ⟨hsize, rfl⟩ := hws
  cases h : is_ireg r with
  | true =>
    rw [name_of_ireg h]
    refine (changesOnly_to_int (rr r) (rr v) ?_).mono (by simp)
    obtain hsize | hsize := hsize <;> rw [hsize] <;> decide
  | false =>
    rw [name_of_freg h]
    refine (changesOnly_to_float (rr r) (rr v) ?_).mono (by simp)
    obtain hsize | hsize := hsize <;> rw [hsize] <;> decide

/-- Where it keeps to its register, `load` changes nothing else but `t0`. -/
theorem load_changesOnly {r : Treg} {t : Scalar} (ht : is_scalar t = true) {sv : Source}
    (hkeeps : load_keeps r t sv) {ws : List Word} (hws : load r t sv = some ws) :
    ChangesOnly {name r, .x 5} ws := by
  have hfreg := is_freg_eq r
  have hx {ws : List Word} (hireg : is_ireg r = true) (h : WritesOnly (rr r) ws) :
      ChangesOnly {name r, .x 5} ws := by
    rw [name_of_ireg hireg]
    exact h.changesOnly.mono (by simp)
  have hscratch {ws : List Word} (h : WritesOnly (scratch r) ws) : ChangesOnly {name r, .x 5} ws := by
    unfold scratch at h
    split at h
    · rename_i hireg
      exact hx hireg h
    · exact h.changesOnly.mono (by simp)
  cases sv with
  | lval a =>
    cases hireg : is_ireg r with
    | true => exact load_lval_ireg_keeps hireg ht hws
    | false =>
      have hfreg : is_freg r = true := by rw [hfreg, hireg]; rfl
      refine load_lval_freg_keeps hireg (hkeeps hfreg ?_) hws
      by_contra hnot
      simp [load, load_lval, hfreg, hnot] at hws
  | VT_CONST c =>
    rw [load, Option.ite_none_right_eq_some] at hws
    obtain ⟨hassert, hws⟩ := hws
    have hireg : is_ireg r = true := by
      by_contra hnot
      rw [Bool.not_eq_true] at hnot
      rw [hnot] at hfreg
      obtain hassert | hassert := hassert
      · simp [hnot] at hassert
      · exact hkeeps hfreg hassert
    exact hx hireg (load_const_writesOnly hws)
  | VT_SYM s =>
    rw [load, Option.ite_none_right_eq_some] at hws
    obtain ⟨hassert, hws⟩ := hws
    simp only [Option.bind_eq_bind, Option.bind_eq_some_iff, Option.pure_def, Option.some.injEq] at hws
    obtain ⟨⟨pre, rb, fc⟩, hsym, vs, hconst, rfl⟩ := hws
    have hireg : is_ireg r = true := by
      by_contra hnot
      rw [Bool.not_eq_true] at hnot
      rw [hnot] at hfreg
      obtain hassert | hassert := hassert
      · simp [hnot] at hassert
      · obtain ⟨hstatic, hlarge⟩ := hkeeps hfreg hassert
        simp [load_symofs, hstatic, hlarge] at hsym
    exact (hscratch (load_symofs_writesOnly hsym)).append (hx hireg (load_const_writesOnly hconst))
  | VT_LOCAL c =>
    rw [load, Option.ite_none_right_eq_some] at hws
    obtain ⟨hireg, hws⟩ := hws
    simp only [Option.bind_eq_bind, Option.bind_eq_some_iff, Option.pure_def, Option.some.injEq] at hws
    obtain ⟨⟨pre, br, fc⟩, hsym, w, hw, rfl⟩ := hws
    obtain rfl := EI_eq_some hw
    exact (hscratch (load_symofs_writesOnly hsym)).append (hx hireg (addi_writesOnly _ _ _))
  | VT_LLOCAL c => cases hws
  | reg v =>
    rw [load] at hws
    split at hws
    · rename_i hboth
      cases hws
      have hireg : is_ireg r = false := by
        rw [hboth.1] at hfreg
        simpa using hfreg
      rw [name_of_freg hireg]
      refine (changesOnly_sgnj (rr r) (rr v) ?_).mono (by simp)
      split
      · exact Or.inr rfl
      · exact Or.inl rfl
    · split at hws
      · rename_i hboth
        simp only [Option.bind_eq_bind, Option.bind_eq_some_iff, Option.pure_def, Option.some.injEq] at hws
        obtain ⟨w, hw, rfl⟩ := hws
        obtain rfl := EI_eq_some hw
        exact hx hboth.1 (addi_writesOnly _ _ _)
      · exact cross_move_keeps hws

/-- A state with `u` in an integer register and zeros elsewhere. -/
def only (d : BitVec 5) (u : BitVec 64) : FHart :=
  ⟨⟨fun q => if q = d then u else 0#64, fun _ => 0#8, 0#64⟩, fun _ => 0#64⟩

theorem loadLE_zero (addr : BitVec 64) (n : Nat) : loadLE (fun _ => 0#8) addr n = 0#64 := by
  induction n generalizing addr with
  | zero => rfl
  | succ n ih => rw [loadLE, ih]; rfl

/-- The code leaves the same in a register, whatever the register held. -/
def Overwrites (d : BitVec 5) (ws : List Word) : Prop :=
  ∃ v, ∀ u, ∃ s', runF ws (only d u) = some s' ∧ s'.get d = v

theorem Overwrites.not_changesOnly {d : BitVec 5} {ws : List Word} (h : Overwrites d ws) (hd : d ≠ 0#5)
    {rs : Set RegName} (hrs : RegName.x d ∉ rs) : ¬ ChangesOnly rs ws := by
  intro hkeep
  obtain ⟨v, hv⟩ := h
  obtain ⟨s', hrun, hval⟩ := hv (v + 1#64)
  obtain ⟨s'', hrun', hkept⟩ := hkeep (only d (v + 1#64))
  obtain rfl := Option.some.inj (hrun.symm.trans hrun')
  have hself : (only d (v + 1#64)).get d = v + 1#64 := by simp [Hart.get, only, hd]
  have heq : v = v + 1#64 := hval.symm.trans ((hkept _ hrs).trans hself)
  have hone : 1#64 = 0#64 := BitVec.self_eq_add_right.mp heq
  exact absurd hone (by decide)

theorem overwrites_of_sets {d : BitVec 5} {ws : List Word} {v : BitVec 64}
    (h : ∀ s, ∃ s', run ws s = some s' ∧ Sets s d v s') : Overwrites d ws := by
  refine ⟨v, fun u => ?_⟩
  obtain ⟨s', hrun, hset⟩ := h (only d u).toHart
  exact ⟨_, runF_of_run hrun, hset.value⟩

theorem Overwrites.append {d : BitVec 5} {ws vs : List Word} (h : Overwrites d ws) {rs : Set RegName}
    (hvs : ChangesOnly rs vs) (hrs : RegName.x d ∉ rs) : Overwrites d (ws ++ vs) := by
  obtain ⟨v, hv⟩ := h
  refine ⟨v, fun u => ?_⟩
  obtain ⟨s₁, hrun₁, hval⟩ := hv u
  obtain ⟨s₂, hrun₂, hkeep⟩ := hvs s₁
  exact ⟨s₂, by rw [runF_append, hrun₁, Option.bind_some, hrun₂], (hkeep _ hrs).trans hval⟩

theorem imm12_low_byte (fc : BitVec 32) : imm12 (fc &&& 0xff#32) := by
  have hle : (fc &&& 0xff#32).toNat ≤ 255 := by
    rw [BitVec.toNat_and]
    exact Nat.and_le_right
  have hcond := BitVec.toInt_eq_toNat_cond (fc &&& 0xff#32)
  rw [imm12_iff]
  split at hcond <;> omega

/-- The base register of a spilled address, with an offset that fits the load. -/
theorem load_symofs_llocal {c : BitVec 64} (hc : (c.setWidth 32).signExtend 64 = c) :
    ∃ pre br fc, load_symofs 5#5 (.VT_LLOCAL c) = some (pre, br, fc) ∧ imm12 fc ∧
      ∀ s, ∃ s', run pre s = some s' ∧ s'.mem = s.mem := by
  rw [load_symofs, if_neg (not_not.mpr hc)]
  by_cases hlarge : large (c.setWidth 32) = true
  · rw [if_pos hlarge]
    refine ⟨_, _, _, rfl, imm12_low12 _, fun s => ?_⟩
    have hadd (s : Hart) : exec (ER 0x33#7 0 5#5 5#5 8 0) s = some (s.set 5#5 (s.get 5 + s.get 8)).next :=
      exec_add s
    rw [run_cons, exec_lui, Option.bind_some, run_cons, hadd, Option.bind_some, run_nil]
    exact ⟨_, rfl, rfl⟩
  · rw [if_neg hlarge]
    rw [large_iff, not_not] at hlarge
    exact ⟨_, _, _, rfl, hlarge, fun s => ⟨s, rfl, rfl⟩⟩

theorem load_lval_overwrites {r : Treg} (h : is_ireg r = false) {t : Scalar} (ht : float_or_double t)
    {a : Addr} (ha : Detour a) : ∃ ws, load_lval r t a = some ws ∧ Overwrites (rr r) ws := by
  have hfreg : is_freg r = true := by rw [is_freg_eq, h]; rfl
  have hscratch : scratch r = 5#5 := by rw [scratch, h]; rfl
  have hload {ws : List Word} (hws : Overwrites (rr r) ws) {br : BitVec 5} {fc : BitVec 32} {w : Word}
      (hw : EI 0x07#7 (load_func3 t) (rr r) br fc = some w) : Overwrites (rr r) (ws ++ [w]) :=
    hws.append (changesOnly_float_load hw (float_func3 ht)) (by simp)
  unfold load_lval
  rw [if_neg (fun hand => hand.2 ht)]
  simp only [hfreg, hscratch, if_true]
  cases a with
  | VT_LOCAL c => exact absurd ha id
  | VT_SYM s => exact absurd ha id
  | reg v => exact absurd ha id
  | VT_LLOCAL c =>
    obtain ⟨pre, br, fc, hsym, himm, hmem⟩ := load_symofs_llocal ha
    obtain ⟨w, hw⟩ : ∃ w, EI 0x03#7 3#3 (rr r) br fc = some w := ⟨_, if_pos himm⟩
    obtain ⟨w', hw'⟩ : ∃ w, EI 0x07#7 (load_func3 t) (rr r) (rr r) 0#32 = some w := ⟨_, if_pos (by decide)⟩
    refine ⟨(pre ++ [w]) ++ [w'], by simp [hsym, hw, hw'], hload ⟨0#64, fun u => ?_⟩ hw'⟩
    obtain ⟨s₁, hrun₁, hmem₁⟩ := hmem (only (rr r) u).toHart
    refine ⟨_, runF_of_run (by rw [run_append, hrun₁, Option.bind_some, run_cons, exec_ld hw,
      Option.bind_some, run_nil]), ?_⟩
    change ((s₁.set (rr r) _).next).get (rr r) = 0#64
    rw [Hart.get_next, Hart.get_set_self _ (rr_ne_zero r), hmem₁]
    exact loadLE_zero _ 8
  | VT_CONST c =>
    by_cases hsi : c.sshiftRight 32 ≠ 0#64
    · obtain ⟨ws, hws, hrun⟩ := load_large_constant_run (rr_ne_zero r) (c.setWidth 32) (high_word c)
      obtain ⟨w, hw⟩ : ∃ w, EI 0x07#7 (load_func3 t) (rr r) (rr r) (c.setWidth 32 &&& 0xff#32) = some w :=
        ⟨_, if_pos (imm12_low_byte _)⟩
      refine ⟨ws ++ [w], ?_, hload (overwrites_of_sets hrun) hw⟩
      rw [high_word] at hws
      simp [hsi, hws, hw]
    · obtain ⟨w, hw⟩ : ∃ w, EI 0x07#7 (load_func3 t) (rr r) (rr r) (low12 (c.setWidth 32)) = some w :=
        ⟨_, if_pos (imm12_low12 _)⟩
      refine ⟨[lui (rr r) (0x800#32 + c.setWidth 32)] ++ [w], ?_, hload (overwrites_of_sets fun s =>
        ⟨_, by rw [run_cons, exec_lui, Option.bind_some, run_nil], Sets.set_next s (rr_ne_zero r) _⟩) hw⟩
      simp [hsi, hw]

theorem exec_auipc (d : BitVec 5) (hi : BitVec 20) (s : Hart) :
    exec (auipc d hi) s = some (s.set d (s.pc + immU (auipc d hi))).next := by
  simp [exec, opcode_auipc, rd_auipc]

/-- The last instructions for a symbol's address only read the base. -/
theorem load_const_sym {d : BitVec 5} (hd : d ≠ 0#5) {t : Scalar} (ht : t.bt = VT_LDOUBLE)
    {c : BitVec 64} (hc : ¬ large (c.setWidth 32) = true) :
    ∃ vs, load_const d t true 5#5 c = some vs ∧ ∃ f : BitVec 64 → BitVec 64,
      ∀ s, ∃ s', run vs s = some s' ∧ s'.get d = f (s.get 5#5) := by
  unfold load_const
  by_cases hlarge : (c.setWidth 32).signExtend 64 ≠ c ∧ c.sshiftRight 32 ≠ 0#64
  · obtain ⟨ws, hws, hrun⟩ := load_large_constant_run hd (c.setWidth 32) (high_word c)
    obtain ⟨w, hw⟩ : ∃ w, EI 0x13#7 0#3 d d (low12 (c.setWidth 32 &&& 0xff#32)) = some w :=
      ⟨_, if_pos (imm12_low12 _)⟩
    rw [high_word] at hws
    obtain ⟨v, hrun⟩ : ∃ v, ∀ s, ∃ s', run ws s = some s' ∧ Sets s d v s' := ⟨_, hrun⟩
    refine ⟨ws ++ [w], by simp [hlarge, hws, hw],
      fun _ => v + (low12 (c.setWidth 32 &&& 0xff#32)).signExtend 64, fun s => ?_⟩
    obtain ⟨s₁, hrun₁, hset₁⟩ := hrun s
    obtain ⟨s₂, hexec, hset₂⟩ := step_addi hw hd s₁
    rw [hset₁.value] at hset₂
    exact ⟨s₂, by rw [run_append, hrun₁, Option.bind_some, run_cons, hexec, Option.bind_some, run_nil],
      hset₂.value⟩
  · obtain ⟨w, hw⟩ : ∃ w, EI 0x13#7 0#3 d 5#5 (low12 (c.setWidth 32)) = some w :=
      ⟨_, if_pos (imm12_low12 _)⟩
    have hbt : ¬((c.setWidth 32).signExtend 64 ≠ c ∧ t.bt = VT_LLONG) := by
      rw [ht]
      exact fun hand => absurd hand.2 (by decide)
    refine ⟨[w], by simp [hlarge, hbt, hc, hw], fun x => x + (low12 (c.setWidth 32)).signExtend 64, fun s => ?_⟩
    obtain ⟨s₁, hexec, hset⟩ := step_addi hw hd s
    exact ⟨s₁, by rw [run_cons, hexec, Option.bind_some, run_nil], hset.value⟩

/-- A symbol's address goes through `t0`, then into the register by the last addition. -/
theorem load_sym_overwrites {d : BitVec 5} (hd : d ≠ 0#5) {t : Scalar}
    (ht : t.bt = VT_LDOUBLE) {s : SymRef} (hs : ¬ (s.isStatic = false ∧ large (s.c.setWidth 32) = true)) :
    ∃ pre rb fc vs, load_symofs 5#5 (.VT_SYM s) = some (pre, rb, fc) ∧
      load_const d t true rb (if s.isStatic then fc.signExtend 64 else s.c) = some vs ∧
        Overwrites d (pre ++ vs) := by
  have hcompose {pre vs : List Word} (hpre : ∃ v, ∀ u, ∃ s', run pre (only d u).toHart = some s' ∧
      s'.get 5#5 = v) (hvs : ∃ f : BitVec 64 → BitVec 64, ∀ s, ∃ s', run vs s = some s' ∧
        s'.get d = f (s.get 5#5)) : Overwrites d (pre ++ vs) := by
    obtain ⟨v, hv⟩ := hpre
    obtain ⟨f, hf⟩ := hvs
    refine ⟨f v, fun u => ?_⟩
    obtain ⟨s₁, hrun₁, hval₁⟩ := hv u
    obtain ⟨s₂, hrun₂, hval₂⟩ := hf s₁
    exact ⟨_, runF_of_run (by rw [run_append, hrun₁, Option.bind_some, hrun₂]), by rw [← hval₁]; exact hval₂⟩
  by_cases hstatic : s.isStatic = true
  · have hlow : ((s.lo.signExtend 32).signExtend 64).setWidth 32 = s.lo.signExtend 32 :=
      machine.setWidth_signExtend _
    have himm : ¬ large (((s.lo.signExtend 32).signExtend 64).setWidth 32) = true := by
      rw [hlow, large_iff, not_not, imm12_iff, BitVec.toInt_signExtend_of_le (by decide)]
      exact ⟨BitVec.le_toInt _, BitVec.toInt_lt⟩
    obtain ⟨vs, hvs, hf⟩ := load_const_sym hd ht himm
    refine ⟨[auipc 5#5 s.hi], 5#5, s.lo.signExtend 32, vs, by simp [load_symofs, hstatic], ?_, ?_⟩
    · rw [if_pos hstatic]
      exact hvs
    · refine hcompose ⟨0#64 + immU (auipc 5#5 s.hi), fun u => ?_⟩ hf
      rw [run_cons, exec_auipc, Option.bind_some, run_nil]
      exact ⟨_, rfl, rfl⟩
  · have hc : ¬ large (s.c.setWidth 32) = true := fun hlarge => hs ⟨Bool.not_eq_true _ ▸ hstatic, hlarge⟩
    obtain ⟨vs, hvs, hf⟩ := load_const_sym hd ht hc
    refine ⟨[auipc 5#5 s.hi, EIu 0x03#7 3 5#5 5#5 (s.lo.signExtend 32)], 5#5, s.c.setWidth 32, vs,
      by simp [load_symofs, hstatic, hc], ?_, ?_⟩
    · rw [if_neg hstatic]
      exact hvs
    · refine hcompose ⟨0#64, fun u => ?_⟩ hf
      have hload (h : Hart) : exec (EIu 0x03#7 3 5#5 5#5 (s.lo.signExtend 32)) h = some (h.set 5#5
          (loadLE h.mem (h.get 5#5 + immI (EIu 0x03#7 3 5#5 5#5 (s.lo.signExtend 32))) 8)).next := exec_load rfl
      rw [run_cons, exec_auipc, Option.bind_some, run_cons, hload, Option.bind_some, run_nil]
      exact ⟨_, rfl, loadLE_zero _ 8⟩

/-- Elsewhere it changes the integer register of the same number. -/
theorem load_clobbers {r : Treg} {t : Scalar} {sv : Source} (h : ¬ load_keeps r t sv) :
    ∃ ws, load r t sv = some ws ∧ Overwrites (rr r) ws ∧ is_ireg r = false := by
  unfold load_keeps at h
  rw [Classical.not_imp] at h
  obtain ⟨hfreg, h⟩ := h
  have hireg : is_ireg r = false := by
    rw [is_freg_eq] at hfreg
    simpa using hfreg
  have hscratch : scratch r = 5#5 := by rw [scratch, hireg]; rfl
  cases sv with
  | lval a =>
    obtain ⟨ht, ha⟩ := Classical.not_imp.mp h
    obtain ⟨ws, hws, hover⟩ := load_lval_overwrites hireg ht (not_not.mp ha)
    exact ⟨ws, hws, hover, hireg⟩
  | VT_CONST c =>
    have ht := not_not.mp h
    obtain ⟨ws, hws, hrun⟩ := load_const_loaded (rr_ne_zero r) t c
    exact ⟨ws, (if_pos (Or.inr ht)).trans hws, overwrites_of_sets hrun, hireg⟩
  | VT_SYM s =>
    obtain ⟨ht, hs⟩ := Classical.not_imp.mp h
    obtain ⟨pre, rb, fc, vs, hsym, hconst, hover⟩ := load_sym_overwrites (rr_ne_zero r) ht hs
    refine ⟨pre ++ vs, ?_, hover, hireg⟩
    rw [load, if_pos (Or.inr ht), hscratch, hsym, Option.bind_eq_bind, Option.bind_some]
    simp only [hconst]
    rfl
  | VT_LOCAL c => exact absurd trivial h
  | VT_LLOCAL c => exact absurd trivial h
  | reg v => exact absurd trivial h

/-- The field `func3` of the store of a type. -/
def store_func3 (t : Scalar) : BitVec 3 :=
  let size := if t.bt = VT_LDOUBLE then 8 else btype_size t.bt
  if size = 1 then 0 else if size = 2 then 1 else if size = 4 then 2 else 3

def store_opcode (r : Treg) : BitVec 7 := if is_freg r then 0x27 else 0x23

/-- The assertion of `store`. -/
def store_admits (r : Treg) (t : Scalar) : Prop :=
  is_float t.bt = true → t.bt = VT_LDOUBLE ∨ is_freg r = true

/-- There are no stores of bytes and halfwords from the floating-point registers. -/
def legal (r : Treg) (t : Scalar) : Prop := is_freg r = true → 4 ≤ btype_size t.bt

/-- The address forms that `store` takes to a base register without the use of `s0`. -/
def addressed (a : Addr) : Prop :=
  match a with
  | .VT_LOCAL c => (c.setWidth 32).signExtend 64 = c
  | .VT_SYM s => ¬ (s.isStatic = false ∧ large (s.c.setWidth 32) = true)
  | .reg _ => True
  | _ => False

/-- The cases in which `store` leaves the registers alone. -/
def store_keeps (r : Treg) (t : Scalar) (a : Addr) : Prop :=
  store_admits r t →
    match a with
    | .VT_CONST _ => False
    | _ => addressed a → legal r t

theorem store_eq {r : Treg} {t : Scalar} (ht : is_scalar t = true) (hr : store_admits r t) (a : Addr) :
    store r t a =
      match a with
      | .VT_LOCAL _ | .VT_SYM _ => do
        let (pre, ptrreg, fc) ← load_symofs 5 a
        return pre ++ [← ES (store_opcode r) (store_func3 t) ptrreg (rr r) fc]
      | .reg v => do
        return [← ES (store_opcode r) (store_func3 t) (ireg v) (rr r) 0#32]
      | .VT_CONST c => do
        if c.sshiftRight 32 ≠ 0#64 then
          return (← load_large_constant 8 (c.setWidth 32) (high_word c)) ++
            [← ES (store_opcode r) (store_func3 t) 8 (rr r) (c.setWidth 32 &&& 0xff#32)]
        else
          return [lui 8 (0x800#32 + c.setWidth 32),
            ← ES (store_opcode r) (store_func3 t) 8 (rr r) (low12 (c.setWidth 32))]
      | .VT_LLOCAL _ => none := by
  have hassert : ¬(is_float t.bt = true ∧ ¬ is_freg r = true ∧ t.bt ≠ VT_LDOUBLE ∨ t.bt = VT_STRUCT) := by
    rintro (⟨hfloat, hfreg, hbt⟩ | hstruct)
    · obtain hbt' | hfreg' := hr hfloat
      · exact hbt hbt'
      · exact hfreg hfreg'
    · rw [is_scalar, Scalar.isInteger, hstruct] at ht
      exact absurd ht (by decide)
  unfold store
  rw [if_neg hassert]
  rfl

theorem store_not_admitted {r : Treg} {t : Scalar} (hr : ¬ store_admits r t) (a : Addr) :
    store r t a = none := by
  unfold store
  refine if_pos (Or.inl ?_)
  rw [store_admits, Classical.not_imp, not_or] at hr
  exact ⟨hr.1, hr.2.2, hr.2.1⟩

theorem imm12_load_symofs {d br : BitVec 5} {a : Addr} {pre : List Word} {fc : BitVec 32}
    (h : load_symofs d a = some (pre, br, fc)) : imm12 fc := by
  have hlocal {c : BitVec 64} (h : (if (c.setWidth 32).signExtend 64 ≠ c then none
      else if large (c.setWidth 32) then
        some ([lui d (0x800#32 + c.setWidth 32), ER 0x33#7 0 d d 8 0], d, low12 (c.setWidth 32))
      else some ([], 8, c.setWidth 32)) = some (pre, br, fc)) : imm12 fc := by
    rw [Option.ite_none_left_eq_some] at h
    obtain ⟨-, h⟩ := h
    split at h
    · cases h
      exact imm12_low12 _
    · rename_i hlarge
      cases h
      rwa [large_iff, not_not] at hlarge
  cases a with
  | VT_LOCAL c => exact hlocal h
  | VT_LLOCAL c => exact hlocal h
  | VT_SYM s =>
    rw [load_symofs] at h
    split at h
    · cases h
      rw [imm12_iff, BitVec.toInt_signExtend_of_le (by decide)]
      exact ⟨BitVec.le_toInt _, BitVec.toInt_lt⟩
    · split at h
      · cases h
      · rename_i hlarge
        cases h
        rwa [large_iff, not_not] at hlarge
  | VT_CONST c => cases h
  | reg v => cases h

theorem load_symofs_isSome {d : BitVec 5} {a : Addr} (ha : addressed a) (hreg : ∀ v, a ≠ .reg v) :
    ∃ p, load_symofs d a = some p := by
  cases a with
  | VT_LOCAL c =>
    have hfits : (c.setWidth 32).signExtend 64 = c := ha
    rw [load_symofs, if_neg (not_not.mpr hfits)]
    split
    · exact ⟨_, rfl⟩
    · exact ⟨_, rfl⟩
  | VT_SYM s =>
    rw [load_symofs]
    split
    · exact ⟨_, rfl⟩
    · rename_i hstatic
      rw [if_neg (fun hlarge => ha ⟨Bool.not_eq_true _ ▸ hstatic, hlarge⟩)]
      exact ⟨_, rfl⟩
  | VT_LLOCAL c => exact absurd ha id
  | VT_CONST c => exact absurd ha id
  | reg v => exact absurd rfl (hreg v)

theorem addressed_of_isSome {d : BitVec 5} {a : Addr} {p : List Word × BitVec 5 × BitVec 32}
    (hlocal : ∀ c, a ≠ .VT_LLOCAL c) (h : load_symofs d a = some p) : addressed a := by
  cases a with
  | VT_LOCAL c =>
    rw [load_symofs, Option.ite_none_left_eq_some, not_not] at h
    exact h.1
  | VT_SYM s =>
    rintro ⟨hstatic, hlarge⟩
    simp [load_symofs, hstatic, hlarge] at h
  | VT_LLOCAL c => exact absurd rfl (hlocal c)
  | VT_CONST c => cases h
  | reg v => cases h

theorem store_func3_lt (t : Scalar) : (store_func3 t).toNat < 4 := by
  unfold store_func3
  simp only
  split_ifs <;> decide

theorem store_func3_float {t : Scalar} (ht : is_scalar t = true) :
    store_func3 t = 2#3 ∨ store_func3 t = 3#3 ↔ 4 ≤ btype_size t.bt := by
  obtain ⟨bt, u⟩ := t
  revert ht
  cases bt <;> cases u <;> decide

section

variable {r : Treg} {t : Scalar} {br : BitVec 5} {fc : BitVec 32} {w : Word}

theorem changesOnly_last_store (ht : is_scalar t = true) (hlegal : legal r t)
    (hw : ES (store_opcode r) (store_func3 t) br (rr r) fc = some w) : ChangesOnly ∅ [w] := by
  unfold store_opcode at hw
  split at hw
  · rename_i hfreg
    exact changesOnly_float_store hw ((store_func3_float ht).mpr (hlegal hfreg))
  · exact changesOnly_store hw (store_func3_lt t)

theorem last_store_illegal (ht : is_scalar t = true) (hlegal : ¬ legal r t)
    (hw : ES (store_opcode r) (store_func3 t) br (rr r) fc = some w) (s : FHart) : execF w s = none := by
  obtain ⟨hfreg, hsize⟩ := Classical.not_imp.mp hlegal
  unfold store_opcode at hw
  rw [if_pos hfreg] at hw
  exact execF_store_none hw (mt (store_func3_float ht).mp hsize) s

theorem not_changesOnly_of_illegal (ht : is_scalar t = true) (hlegal : ¬ legal r t)
    (hw : ES (store_opcode r) (store_func3 t) br (rr r) fc = some w) (pre : List Word) (rs : Set RegName) :
    ¬ ChangesOnly rs (pre ++ [w]) := by
  intro hchanges
  obtain ⟨s', hrun, -⟩ := hchanges (only 0#5 0#64)
  rw [runF_append, Option.bind_eq_some_iff] at hrun
  obtain ⟨s₁, -, hrun⟩ := hrun
  rw [runF_cons, last_store_illegal ht hlegal hw, Option.bind_none] at hrun
  cases hrun

end

/-- Every store but that to a constant address is a base in `t0` and the store itself. -/
theorem store_shape {r : Treg} {t : Scalar} (ht : is_scalar t = true) {a : Addr} (ha : ∀ c, a ≠ .VT_CONST c)
    {ws : List Word} (h : store r t a = some ws) : addressed a ∧ ∃ pre br fc w, WritesOnly 5#5 pre ∧
      ES (store_opcode r) (store_func3 t) br (rr r) fc = some w ∧ ws = pre ++ [w] := by
  have hr : store_admits r t := by
    by_contra hr
    rw [store_not_admitted hr] at h
    cases h
  rw [store_eq ht hr] at h
  cases a with
  | VT_LOCAL c =>
    simp only [Option.bind_eq_bind, Option.bind_eq_some_iff, Option.pure_def, Option.some.injEq] at h
    obtain ⟨⟨pre, br, fc⟩, hsym, w, hw, rfl⟩ := h
    exact ⟨addressed_of_isSome (fun _ heq => by cases heq) hsym, pre, br, fc, w, load_symofs_writesOnly hsym, hw, rfl⟩
  | VT_SYM s =>
    simp only [Option.bind_eq_bind, Option.bind_eq_some_iff, Option.pure_def, Option.some.injEq] at h
    obtain ⟨⟨pre, br, fc⟩, hsym, w, hw, rfl⟩ := h
    exact ⟨addressed_of_isSome (fun _ heq => by cases heq) hsym, pre, br, fc, w, load_symofs_writesOnly hsym, hw, rfl⟩
  | reg v =>
    simp only [Option.bind_eq_bind, Option.bind_eq_some_iff, Option.pure_def, Option.some.injEq] at h
    obtain ⟨w, hw, rfl⟩ := h
    exact ⟨trivial, [], ireg v, 0#32, w, writesOnly_nil _, hw, rfl⟩
  | VT_LLOCAL c => cases h
  | VT_CONST c => exact absurd rfl (ha c)

theorem store_of_addressed {r : Treg} {t : Scalar} (ht : is_scalar t = true) (hr : store_admits r t)
    {a : Addr} (ha : addressed a) : ∃ ws, store r t a = some ws := by
  have hpre (hreg : ∀ v, a ≠ .reg v) : ∃ ws, (do
      let (pre, ptrreg, fc) ← load_symofs 5 a
      return pre ++ [← ES (store_opcode r) (store_func3 t) ptrreg (rr r) fc]) = some ws := by
    obtain ⟨⟨pre, br, fc⟩, hsym⟩ := load_symofs_isSome (d := 5) ha hreg
    obtain ⟨w, hw⟩ : ∃ w, ES (store_opcode r) (store_func3 t) br (rr r) fc = some w :=
      ⟨_, if_pos (imm12_load_symofs hsym)⟩
    refine ⟨pre ++ [w], ?_⟩
    rw [hsym, Option.bind_eq_bind, Option.bind_some]
    simp only [hw]
    rfl
  rw [store_eq ht hr]
  cases a with
  | VT_LOCAL c => exact hpre fun _ heq => by cases heq
  | VT_SYM s => exact hpre fun _ heq => by cases heq
  | reg v =>
    obtain ⟨w, hw⟩ : ∃ w, ES (store_opcode r) (store_func3 t) (ireg v) (rr r) 0#32 = some w :=
      ⟨_, if_pos (by decide)⟩
    exact ⟨[w], by simp [hw]⟩
  | VT_LLOCAL c => exact absurd ha id
  | VT_CONST c => exact absurd ha id

/-- The address of a store to a constant is built in `s0`. -/
theorem store_const_overwrites {r : Treg} {t : Scalar} (ht : is_scalar t = true) (hr : store_admits r t)
    (c : BitVec 64) : ∃ pre br fc w, store r t (.VT_CONST c) = some (pre ++ [w]) ∧
      ES (store_opcode r) (store_func3 t) br (rr r) fc = some w ∧ Overwrites 8#5 pre := by
  rw [store_eq ht hr]
  by_cases hsi : c.sshiftRight 32 ≠ 0#64
  · have hs0 : (8#5 : BitVec 5) ≠ 0#5 := by decide
    obtain ⟨ws, hws, hrun⟩ := load_large_constant_run hs0 (c.setWidth 32) (high_word c)
    obtain ⟨w, hw⟩ : ∃ w, ES (store_opcode r) (store_func3 t) 8#5 (rr r) (c.setWidth 32 &&& 0xff#32) = some w :=
      ⟨_, if_pos (imm12_low_byte _)⟩
    exact ⟨ws, 8#5, _, w, by simp [hsi, hws, hw], hw, overwrites_of_sets hrun⟩
  · obtain ⟨w, hw⟩ : ∃ w, ES (store_opcode r) (store_func3 t) 8#5 (rr r) (low12 (c.setWidth 32)) = some w :=
      ⟨_, if_pos (imm12_low12 _)⟩
    refine ⟨[lui 8#5 (0x800#32 + c.setWidth 32)], 8#5, _, w, by simp [hsi, hw], hw,
      ⟨((0x800#32 + c.setWidth 32) &&& 0xfffff000#32).signExtend 64, fun u => ?_⟩⟩
    exact ⟨_, runF_of_run (by rw [run_cons, exec_lui, Option.bind_some, run_nil]), rfl⟩

/-- The code of `load`, if there is any, changes its register and `t0` alone. -/
def LoadFramed (r : Treg) (t : Scalar) (sv : Source) : Prop :=
  ∀ ws, load r t sv = some ws → ChangesOnly {name r, .x 5} ws

/-- The code of `store`, if there is any, changes `t0` alone. -/
def StoreFramed (r : Treg) (t : Scalar) (a : Addr) : Prop :=
  ∀ ws, store r t a = some ws → ChangesOnly {.x 5} ws

theorem load_framed_iff (r : Treg) {t : Scalar} (ht : is_scalar t = true) (sv : Source) :
    LoadFramed r t sv ↔ load_keeps r t sv := by
  constructor
  · intro hframed
    by_contra hnot
    obtain ⟨ws, hws, hover, hireg⟩ := load_clobbers hnot
    refine hover.not_changesOnly (rr_ne_zero r) ?_ (hframed ws hws)
    rw [name_of_freg hireg]
    simp [rr_ne_five r]
  · exact fun hkeeps ws hws => load_changesOnly ht hkeeps hws

theorem store_framed_iff (r : Treg) {t : Scalar} (ht : is_scalar t = true) (a : Addr) :
    StoreFramed r t a ↔ store_keeps r t a := by
  by_cases hconst : ∃ c, a = .VT_CONST c
  · obtain ⟨c, rfl⟩ := hconst
    constructor
    · intro hframed hr
      obtain ⟨pre, br, fc, w, hws, hw, hover⟩ := store_const_overwrites ht hr c
      have hchanges := hframed _ hws
      by_cases hlegal : legal r t
      · exact (hover.append (changesOnly_last_store ht hlegal hw) (by simp)).not_changesOnly (by decide)
          (by simp) hchanges
      · exact not_changesOnly_of_illegal ht hlegal hw pre _ hchanges
    · intro hkeeps ws hws
      have hr : ¬ store_admits r t := fun hr => hkeeps hr
      rw [store_not_admitted hr] at hws
      cases hws
  · have hconst (c : BitVec 64) : a ≠ .VT_CONST c := fun heq => hconst ⟨c, heq⟩
    have hkeeps_iff : store_keeps r t a ↔ (store_admits r t → addressed a → legal r t) := by
      cases a with
      | VT_CONST c => exact absurd rfl (hconst c)
      | _ => rfl
    rw [hkeeps_iff]
    constructor
    · intro hframed hr haddressed
      obtain ⟨ws, hws⟩ := store_of_addressed ht hr haddressed
      obtain ⟨-, pre, br, fc, w, -, hw, rfl⟩ := store_shape ht hconst hws
      by_contra hlegal
      exact not_changesOnly_of_illegal ht hlegal hw pre _ (hframed _ hws)
    · intro hlegal ws hws
      obtain ⟨haddressed, pre, br, fc, w, hpre, hw, rfl⟩ := store_shape ht hconst hws
      have hr : store_admits r t := by
        by_contra hr
        rw [store_not_admitted hr] at hws
        cases hws
      exact hpre.changesOnly.append ((changesOnly_last_store ht (hlegal hr haddressed) hw).mono (by simp))

/-- `load` and `store` keep the other registers exactly in the cases of `load_keeps` and
    `store_keeps`: a constant address takes `s0` in a store and, like a spilled one, an
    integer register in the load of a floating-point value. -/
theorem access_framed_iff (r : Treg) {t : Scalar} (ht : is_scalar t = true) (sv : Source) (a : Addr) :
    (LoadFramed r t sv ↔ load_keeps r t sv) ∧ (StoreFramed r t a ↔ store_keeps r t a) :=
  ⟨load_framed_iff r ht sv, store_framed_iff r ht a⟩

theorem access_framed_local : (LoadFramed 8 ⟨VT_DOUBLE, false⟩ (.lval (.VT_LOCAL 16#64)) ↔
      load_keeps 8 ⟨VT_DOUBLE, false⟩ (.lval (.VT_LOCAL 16#64))) ∧
    (StoreFramed 8 ⟨VT_DOUBLE, false⟩ (.VT_LOCAL 16#64) ↔
      store_keeps 8 ⟨VT_DOUBLE, false⟩ (.VT_LOCAL 16#64)) :=
  access_framed_iff 8 rfl _ _

/-- A store of `a0` to the address `0x10000000` loses the frame pointer. -/
theorem store_to_constant_not_framed : ¬ StoreFramed 0 .int (.VT_CONST 0x10000000#64) := by
  rw [store_framed_iff 0 rfl]
  intro hkeeps
  exact hkeeps fun hfloat => absurd hfloat (by decide)

end tcc.riscv64.treg
