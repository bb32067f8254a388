import Tcc.Gen.Value
import Tcc.Gen.Riscv64.Opil

open machine.rv64

namespace tcc.riscv64

open BType

/-- `ireg`: the register `a0` to `a7` of a value-stack register. -/
def ireg (r : Reg) : BitVec 5 := BitVec.ofNat 5 (r.val + 10)

/-- `((unsigned)fc + (1 << 11)) >> 12`, the test for a large offset. -/
def large (fc : BitVec 32) : Bool := (fc + 0x800#32) >>> 12 != 0#32

/-- `fc << 20 >> 20`: the low twelve bits as a signed number. -/
def low12 (fc : BitVec 32) : BitVec 32 := (fc.setWidth 12).signExtend 32

/-- `load_symofs`: the code that prepares the address, its base register and the
    offset that is left. `rr` is the scratch register. -/
def load_symofs (rr : BitVec 5) (a : Addr) : Option (List Word × BitVec 5 × BitVec 32) :=
  match a with
  | .VT_SYM s =>
    if s.isStatic then some ([auipc rr s.hi], rr, s.lo.signExtend 32)
    else if large (s.c.setWidth 32) then none
    else some ([auipc rr s.hi, EIu 0x03#7 3 rr rr (s.lo.signExtend 32)], rr, s.c.setWidth 32)
  | .VT_LOCAL c | .VT_LLOCAL c =>
    let fc : BitVec 32 := c.setWidth 32
    if fc.signExtend 64 ≠ c then none
    else if large fc then
      some ([lui rr (0x800#32 + fc), ER 0x33#7 0 rr rr 8 0], rr, low12 fc)
    else some ([], 8, fc)
  | _ => none

def load_large_constant (rr : BitVec 5) (fc pi : BitVec 32) : Option (List Word) := do
  let pi := if fc.slt 0#32 then pi + 1#32 else pi
  let w1 ← EI 0x13#7 0 rr rr (low12 pi)
  let w2 ← EI 0x13#7 1 rr rr 12#32
  let w3 ← EI 0x13#7 0 rr rr ((fc + 0x80000#32).sshiftRight 20)
  let w4 ← EI 0x13#7 1 rr rr 12#32
  let fc := (fc.setWidth 20).signExtend 32
  let w5 ← EI 0x13#7 0 rr rr (fc.sshiftRight 8)
  let w6 ← EI 0x13#7 1 rr rr 8#32
  return [lui rr (pi + 0x800#32), w1, w2, w3, w4, w5, w6]

/-- The field `func3` of the load of a type. -/
def load_func3 (t : Scalar) : BitVec 3 :=
  let size := btype_size t.bt
  let func3 : BitVec 3 := if size = 1 then 0 else if size = 2 then 1 else if size = 4 then 2 else 3
  if size < 4 && t.unsigned then func3 ||| 4 else func3

/-- `load` of an lvalue. -/
def load_lval (rr : BitVec 5) (t : Scalar) (a : Addr) : Option (List Word) :=
  let func3 := load_func3 t
  match a with
  | .VT_LOCAL _ | .VT_SYM _ => do
    let (pre, br, fc) ← load_symofs rr a
    return pre ++ [← EI 0x03#7 func3 rr br fc]
  | .reg v => do
    return [← EI 0x03#7 func3 rr (ireg v) 0#32]
  | .VT_LLOCAL _ => do
    let (pre, br, fc) ← load_symofs rr a
    return pre ++ [← EI 0x03#7 3 rr br fc, ← EI 0x03#7 func3 rr rr 0#32]
  | .VT_CONST c => do
    let fc : BitVec 32 := c.setWidth 32
    let si : BitVec 64 := c.sshiftRight 32
    if si ≠ 0#64 then
      return (← load_large_constant rr fc (si.setWidth 32)) ++
        [← EI 0x03#7 func3 rr rr (fc &&& 0xff#32)]
    else return [lui rr (0x800#32 + fc), ← EI 0x03#7 func3 rr rr (low12 fc)]

/-- `load` of a constant. An address with a symbol comes here with its base in
    `rb` and the offset left in `c`. -/
def load_const (rr : BitVec 5) (t : Scalar) (sym : Bool) (rb : BitVec 5) (c : BitVec 64) :
    Option (List Word) := do
  let fc : BitVec 32 := c.setWidth 32
  let si : BitVec 64 := c.sshiftRight 32
  if fc.signExtend 64 ≠ c ∧ si ≠ 0#64 then
    let ws ← load_large_constant rr fc (si.setWidth 32)
    let fc := fc &&& 0xff#32
    if fc ≠ 0#32 ∨ sym then return ws ++ [← EI 0x13#7 0 rr rr (low12 fc)] else return ws
  else
    let rb : BitVec 5 := if large fc then rr else rb
    let pre := if large fc then [lui rr (0x800#32 + fc)] else []
    let w ← EI (0x13#7 ||| if sym then 0#7 else 8#7) 0 rr rb (low12 fc)
    if fc.signExtend 64 ≠ c ∧ t.bt = VT_LLONG then
      return pre ++ [w, ← EI 0x13#7 1 rr rr 32#32, ← EI 0x13#7 5 rr rr 32#32]
    else return pre ++ [w]

/-- `load`: the code that brings a value into register `rr`. -/
def load (rr : BitVec 5) (sv : SValue) : Option (List Word) :=
  match sv.loc with
  | .lval a => load_lval rr sv.type a
  | .VT_CONST c => load_const rr sv.type false 0 c
  | .VT_SYM s => do
    let (pre, rb, fc) ← load_symofs rr (.VT_SYM s)
    return pre ++ (← load_const rr sv.type true rb (if s.isStatic then fc.signExtend 64 else s.c))
  | .VT_LOCAL c => do
    let (pre, br, fc) ← load_symofs rr (.VT_LOCAL c)
    return pre ++ [← EI 0x13#7 0 rr br fc]
  | .reg v => do
    return [← EI 0x13#7 0 rr (ireg v) 0#32]
  | .VT_CMP op a b => some (load_cmp rr op a b)
  | .VT_JMP t jumped => do
    return [← EI 0x13#7 0 rr 0 (if t != jumped then 1#32 else 0#32)]

/-- `store` of register `rr` to a local variable at offset `c`. -/
def store_local (rr : BitVec 5) (bt : BType) (c : BitVec 32) : Option (List Word) := do
  let size := btype_size bt
  let func3 : BitVec 3 := if size = 1 then 0 else if size = 2 then 1 else if size = 4 then 2 else 3
  let (pre, ptrreg, fc) ← load_symofs 5 (.VT_LOCAL (c.signExtend 64))
  return pre ++ [← ES 0x23#7 func3 ptrreg rr fc]

theorem addi_writesOnly (d a : BitVec 5) (imm : BitVec 32) :
    WritesOnly d [EIu 0x13#7 0 d a imm] :=
  writesOnly_EIu fun _ => ⟨_, rfl⟩

theorem load_symofs_writesOnly {rr br : BitVec 5} {a : Addr} {pre : List Word} {fc : BitVec 32}
    (h : load_symofs rr a = some (pre, br, fc)) : WritesOnly rr pre := by
  have hlocal {c : BitVec 64} (h : (if (c.setWidth 32).signExtend 64 ≠ c then none
      else if large (c.setWidth 32) then
        some ([lui rr (0x800#32 + c.setWidth 32), ER 0x33#7 0 rr rr 8 0], rr, low12 (c.setWidth 32))
      else some ([], 8, c.setWidth 32)) = some (pre, br, fc)) : WritesOnly rr pre := by
    split at h
    · cases h
    · split at h
      · cases h
        exact (writesOnly_lui _ _).cons (writesOnly_ER fun _ _ => ⟨_, rfl⟩)
      · cases h
        exact writesOnly_nil rr
  cases a with
  | VT_LOCAL c => exact hlocal h
  | VT_LLOCAL c => exact hlocal h
  | VT_SYM s =>
    simp only [load_symofs] at h
    split at h
    · cases h
      exact writesOnly_auipc _ _
    · split at h
      · cases h
      · cases h
        exact (writesOnly_auipc _ _).cons (writesOnly_load (by decide))
  | VT_CONST c => cases h
  | reg r => cases h

theorem load_large_constant_writesOnly {rr : BitVec 5} {fc pi : BitVec 32} {ws : List Word}
    (h : load_large_constant rr fc pi = some ws) : WritesOnly rr ws := by
  have hslli (n : BitVec 32) (hn : (n.setWidth 12).toNat < 64) :
      WritesOnly rr [EIu 0x13#7 1 rr rr n] :=
    writesOnly_EIu fun x => ⟨x <<< (n.setWidth 12).toNat, if_pos hn⟩
  simp only [load_large_constant, Option.bind_eq_bind, Option.bind_eq_some_iff, Option.pure_def,
    Option.some.injEq] at h
  obtain ⟨w1, h1, w2, h2, w3, h3, w4, h4, w5, h5, w6, h6, rfl⟩ := h
  obtain rfl := EI_eq_some h1
  obtain rfl := EI_eq_some h2
  obtain rfl := EI_eq_some h3
  obtain rfl := EI_eq_some h4
  obtain rfl := EI_eq_some h5
  obtain rfl := EI_eq_some h6
  exact (writesOnly_lui _ _).cons ((addi_writesOnly _ _ _).cons ((hslli _ (by decide)).cons
    ((addi_writesOnly _ _ _).cons ((hslli _ (by decide)).cons ((addi_writesOnly _ _ _).cons
      (hslli _ (by decide)))))))

theorem load_func3_cases {t : Scalar} (ht : t.isInteger = true) :
    load_func3 t ≠ 7#3 ∧ load_func3 t ≠ 6#3 ∧ (t.isNarrow = true → load_func3 t ≠ 3#3) := by
  obtain ⟨bt, u⟩ := t
  revert ht
  cases bt <;> cases u <;> decide

/-- The code of a load ends with the load instruction itself. -/
theorem load_lval_shape {rr : BitVec 5} {t : Scalar} {a : Addr} {ws : List Word}
    (h : load_lval rr t a = some ws) :
    ∃ pre br imm, ws = pre ++ [EIu 0x03#7 (load_func3 t) rr br imm] ∧ WritesOnly rr pre := by
  cases a with
  | VT_LOCAL c =>
    simp only [load_lval, Option.bind_eq_bind, Option.bind_eq_some_iff, Option.pure_def,
      Option.some.injEq] at h
    obtain ⟨⟨pre, br, fc⟩, hpre, w, hw, rfl⟩ := h
    obtain rfl := EI_eq_some hw
    exact ⟨pre, br, fc, rfl, load_symofs_writesOnly hpre⟩
  | VT_SYM s =>
    simp only [load_lval, Option.bind_eq_bind, Option.bind_eq_some_iff, Option.pure_def,
      Option.some.injEq] at h
    obtain ⟨⟨pre, br, fc⟩, hpre, w, hw, rfl⟩ := h
    obtain rfl := EI_eq_some hw
    exact ⟨pre, br, fc, rfl, load_symofs_writesOnly hpre⟩
  | reg v =>
    simp only [load_lval, Option.bind_eq_bind, Option.bind_eq_some_iff, Option.pure_def,
      Option.some.injEq] at h
    obtain ⟨w, hw, rfl⟩ := h
    obtain rfl := EI_eq_some hw
    exact ⟨[], ireg v, 0#32, rfl, writesOnly_nil rr⟩
  | VT_LLOCAL c =>
    simp only [load_lval, Option.bind_eq_bind, Option.bind_eq_some_iff, Option.pure_def,
      Option.some.injEq] at h
    obtain ⟨⟨pre, br, fc⟩, hpre, w, hw, v, hv, rfl⟩ := h
    obtain rfl := EI_eq_some hw
    obtain rfl := EI_eq_some hv
    refine ⟨pre ++ [EIu 0x03#7 3 rr br fc], rr, 0#32, by simp, ?_⟩
    exact (load_symofs_writesOnly hpre).append (writesOnly_load (by decide))
  | VT_CONST c =>
    simp only [load_lval] at h
    split at h
    · simp only [Option.bind_eq_bind, Option.bind_eq_some_iff, Option.pure_def,
        Option.some.injEq] at h
      obtain ⟨pre, hpre, w, hw, rfl⟩ := h
      obtain rfl := EI_eq_some hw
      exact ⟨pre, rr, _, rfl, load_large_constant_writesOnly hpre⟩
    · simp only [Option.bind_eq_bind, Option.bind_eq_some_iff, Option.pure_def,
        Option.some.injEq] at h
      obtain ⟨w, hw, rfl⟩ := h
      obtain rfl := EI_eq_some hw
      exact ⟨[lui rr (0x800#32 + c.setWidth 32)], rr, _, rfl, writesOnly_lui _ _⟩

/-- A load from any lvalue of at most a word sign-extends. -/
theorem load_lval_run {rr : BitVec 5} (hrr : rr ≠ 0#5) {t : Scalar} (ht : t.isInteger = true)
    {a : Addr} {ws : List Word} (h : load_lval rr t a = some ws) (s : Hart) :
    ∃ s', run ws s = some s' ∧ (∀ q, q ≠ rr → s'.get q = s.get q) ∧
      (t.isNarrow = true → machine.IsWord (s'.get rr)) := by
  obtain ⟨pre, br, imm, rfl, hpre⟩ := load_lval_shape h
  obtain ⟨h7, h6, h3⟩ := load_func3_cases ht
  obtain ⟨s₁, hrun₁, hkeep₁⟩ := hpre s
  obtain ⟨v, hv⟩ := loadValue_isSome h7 s₁.mem
    (s₁.get br + immI (EIu 0x03#7 (load_func3 t) rr br imm))
  have hset := Sets.set_next s₁ hrr v
  refine ⟨(s₁.set rr v).next, ?_, fun q hq => (hset.frame q hq).trans (hkeep₁ q hq), ?_⟩
  · rw [run_append, hrun₁, Option.bind_some, run_cons, exec_load hv]
    rfl
  · intro hsize
    rw [hset.value]
    exact loadValue_isWord ⟨h3 hsize, h6⟩ hv

/-- The constants of types of at most a word: the low word, extended. -/
def WordConst (c : BitVec 64) : Prop := machine.IsWord c ∨ (c.setWidth 32).setWidth 64 = c

theorem WordConst.sshiftRight_eq_zero {c : BitVec 64} (h : WordConst c)
    (hne : (c.setWidth 32).signExtend 64 ≠ c) : c.sshiftRight 32 = 0#64 := by
  obtain h | h := h
  · exact absurd h hne
  · rw [← h]
    apply BitVec.eq_of_toNat_eq
    have hlt := (c.setWidth 32).isLt
    have hmsb : ((c.setWidth 32).setWidth 64).msb = false := by
      rw [BitVec.msb_eq_false_iff_two_mul_lt, machine.toNat_zeroExtend]
      omega
    rw [BitVec.sshiftRight_eq_of_msb_false hmsb, BitVec.toNat_ushiftRight,
      machine.toNat_zeroExtend, Nat.shiftRight_eq_div_pow]
    simp only [BitVec.toNat_ofNat]
    omega

theorem addiw_run {d a : BitVec 5} (hd : d ≠ 0#5) (imm : BitVec 32) (s : Hart) :
    ∃ s', run [EIu 0x1b#7 0 d a imm] s = some s' ∧ (∀ q, q ≠ d → s'.get q = s.get q) ∧
      machine.IsWord (s'.get d) := by
  have hset := Sets.set_next s hd
    (((s.get a).setWidth 32 + (imm.setWidth 12).signExtend 32).signExtend 64)
  refine ⟨_, by rw [run_cons, exec_EIuW _ _ _ _ rfl]; rfl, hset.frame, ?_⟩
  rw [hset.value]
  exact machine.isWord_signExtend (by decide) _

theorem load_const_writesOnly {rr rb : BitVec 5} {t : Scalar} {sym : Bool} {c : BitVec 64}
    {ws : List Word} (h : load_const rr t sym rb c = some ws) : WritesOnly rr ws := by
  have hshift (f3 : BitVec 3) (hf3 : f3 = 1#3 ∨ f3 = 5#3) :
      WritesOnly rr [EIu 0x13#7 f3 rr rr 32#32] := by
    obtain rfl | rfl := hf3 <;> exact writesOnly_EIu fun _ => ⟨_, rfl⟩
  have haddi (w : Word) (hw : EI (0x13#7 ||| if sym then 0#7 else 8#7) 0 rr
      (if large (c.setWidth 32) then rr else rb) (low12 (c.setWidth 32)) = some w) :
      WritesOnly rr [w] := by
    obtain rfl := EI_eq_some hw
    cases sym with
    | true => exact addi_writesOnly _ _ _
    | false => exact writesOnly_EIuW fun _ => ⟨_, rfl⟩
  have hpre : WritesOnly rr
      (if large (c.setWidth 32) then [lui rr (0x800#32 + c.setWidth 32)] else []) := by
    split
    · exact writesOnly_lui _ _
    · exact writesOnly_nil rr
  simp only [load_const] at h
  split at h
  · simp only [Option.bind_eq_bind, Option.bind_eq_some_iff, Option.pure_def] at h
    obtain ⟨pre, hlarge, h⟩ := h
    split at h
    · simp only [Option.bind_eq_some_iff, Option.some.injEq] at h
      obtain ⟨w, hw, rfl⟩ := h
      obtain rfl := EI_eq_some hw
      exact (load_large_constant_writesOnly hlarge).append (addi_writesOnly _ _ _)
    · cases h
      exact load_large_constant_writesOnly hlarge
  · simp only [Option.bind_eq_bind, Option.bind_eq_some_iff, Option.pure_def] at h
    obtain ⟨w, hw, h⟩ := h
    split at h
    · simp only [Option.bind_eq_some_iff, Option.some.injEq] at h
      obtain ⟨w1, hw1, w2, hw2, rfl⟩ := h
      obtain rfl := EI_eq_some hw1
      obtain rfl := EI_eq_some hw2
      exact hpre.append ((haddi w hw).cons ((hshift 1#3 (Or.inl rfl)).cons (hshift 5#3 (Or.inr rfl))))
    · cases h
      exact hpre.append (haddi w hw)

/-- Loading a constant of a type of at most a word sign-extends. -/
theorem load_const_run {rr : BitVec 5} (hrr : rr ≠ 0#5) {t : Scalar} (ht : t.bt ≠ VT_LLONG)
    {c : BitVec 64} (hc : WordConst c) {ws : List Word}
    (h : load_const rr t false 0 c = some ws) (s : Hart) :
    ∃ s', run ws s = some s' ∧ (∀ q, q ≠ rr → s'.get q = s.get q) ∧ machine.IsWord (s'.get rr) := by
  simp only [load_const] at h
  split at h
  · rename_i hlarge
    exact absurd (hc.sshiftRight_eq_zero hlarge.1) hlarge.2
  · simp only [Option.bind_eq_bind, Option.bind_eq_some_iff, Option.pure_def] at h
    obtain ⟨w, hw, h⟩ := h
    rw [if_neg (fun hand => ht hand.2), Option.some.injEq] at h
    subst h
    obtain rfl := EI_eq_some hw
    have hpre : WritesOnly rr
        (if large (c.setWidth 32) then [lui rr (0x800#32 + c.setWidth 32)] else []) := by
      split
      · exact writesOnly_lui _ _
      · exact writesOnly_nil rr
    obtain ⟨s₁, hrun₁, hkeep₁⟩ := hpre s
    obtain ⟨s₂, hrun₂, hkeep₂, hword⟩ := addiw_run (a := if large (c.setWidth 32) then rr else 0) hrr
      (low12 (c.setWidth 32)) s₁
    refine ⟨s₂, ?_, fun q hq => (hkeep₂ q hq).trans (hkeep₁ q hq), hword⟩
    rw [run_append, hrun₁, Option.bind_some]
    exact hrun₂

end tcc.riscv64
