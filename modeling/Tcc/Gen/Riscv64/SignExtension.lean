import Tcc.Gen.Riscv64.Canonical
import Tcc.Gen.Riscv64.Cast

open machine machine.rv64

namespace tcc.riscv64

open BType tcc.Op

/-- A settled entry may be given a type that is narrow only if its own type is. -/
theorem Canonical.retype {v : SValue} {h : Hart} (hv : Canonical v h) (hcast : v.mustcast = 0)
    {t : Scalar} (ht : t.isInteger = true) (hnarrow : t.isNarrow = true → v.type.isNarrow = true) :
    Canonical { v with type := t } h where
  integer := ht
  delayed hne := absurd hcast hne
  word r hloc _ hn := hv.word r hloc hcast (hnarrow hn)
  const c hloc hn := hv.const c hloc (hnarrow hn)
  symbol s hloc := by
    cases hn : t.isNarrow with
    | false => rfl
    | true => exact absurd (hnarrow hn) (by rw [hv.symbol s hloc]; decide)
  local_ c hloc := by
    cases hn : t.isNarrow with
    | false => rfl
    | true => exact absurd (hnarrow hn) (by rw [hv.local_ c hloc]; decide)
  compare := hv.compare

/-- The types of operations: `int` and `long long`, signed or unsigned. -/
def Scalar.isOperation (t : Scalar) : Prop := t.bt = VT_INT ∨ t.bt = VT_LLONG

theorem isOperation_integer {t : Scalar} (ht : Scalar.isOperation t) : t.isInteger = true := by
  obtain h | h := ht <;> rw [Scalar.isInteger, h]

theorem isOperation_narrow {t : Scalar} (ht : Scalar.isOperation t) (hn : t.isNarrow = true) :
    t.bt = VT_INT := by
  obtain h | h := ht
  · exact h
  · rw [Scalar.isNarrow, h] at hn
    cases hn

/-- The types of the result of an operation. -/
def resultOf (op : Op) (t : Scalar) : Scalar := if op.isCmp then .int else t

theorem wordConst_boolWord (b : Bool) : WordConst (boolWord b) :=
  Or.inl (boolWord_isWord b)

theorem wordConst_opic_trunc {t : Scalar} (ht : t.bt = VT_INT) (l : BitVec 64) :
    WordConst (opic_trunc t l) := by
  obtain ⟨bt, u⟩ := t
  obtain rfl : bt = VT_INT := ht
  cases u with
  | false =>
    left
    rw [show (⟨VT_INT, false⟩ : Scalar) = .int from rfl, opic_trunc_int]
    exact isWord_signExtend (by decide) _
  | true =>
    right
    rw [show (⟨VT_INT, true⟩ : Scalar) = .uint from rfl, opic_trunc_uint, setWidth_zeroExtend]

/-- The operands of an operation at type `t`: a second operand may be a shift
    count of type `int`. -/
structure OpTypes (t : Scalar) (v2 v1 : SValue) : Prop where
  operation : Scalar.isOperation t
  first : v1.type = t
  second : v2.type = t ∨ v2.type = .int

theorem OpTypes.narrow2 {t : Scalar} {v2 v1 : SValue} (ht : OpTypes t v2 v1)
    (hn : t.isNarrow = true) : v2.type.isNarrow = true := by
  obtain h | h := ht.second <;> rw [h]
  · exact hn
  · rfl

theorem OpTypes.ll_eq_false {t : Scalar} {v2 v1 : SValue} (ht : OpTypes t v2 v1)
    (hn : t.isNarrow = true) : opic_ll v1.type v2.type = false := by
  have hbt := isOperation_narrow ht.operation hn
  have h2 : v2.type.bt = VT_INT := by
    obtain h | h := ht.second <;> rw [h]
    · exact hbt
    · rfl
  simp [opic_ll, ht.first, hbt, h2]

/-- What `gen_opil` computes is canonical at the type of the operation. -/
theorem Computed.canonical {op : Op} {ll : Bool} {t1 t2 t : Scalar} {v : SValue} {h : Hart}
    (hv : Computed op ll t1 t2 v h) (ht : Scalar.isOperation t)
    (hnarrow : t.isNarrow = true → ll = false ∧ t1.isNarrow = true ∧ t2.isNarrow = true) :
    Canonical { v with type := resultOf op t } h := by
  obtain ⟨tv, lv, mv⟩ := v
  obtain rfl : mv = 0 := hv.settled
  unfold resultOf
  by_cases hcmp : op.isCmp = true
  · obtain ⟨op', a, b, hloc, hop'⟩ := hv.compare hcmp
    obtain rfl : lv = .VT_CMP op' a b := hloc
    rw [if_pos hcmp]
    exact canonical_cmp h rfl hop'
  · obtain ⟨d, hloc, hword⟩ := hv.compute (Bool.not_eq_true _ ▸ hcmp)
    obtain rfl : lv = .reg d := hloc
    rw [if_neg hcmp]
    refine canonical_reg (isOperation_integer ht) fun hn => ?_
    obtain ⟨hll, hn1, hn2⟩ := hnarrow hn
    exact hword hll hn1 hn2

/-- What one operation leaves: its result, settled and canonical at the result
    type, above the entries that were below its operands. -/
def Leaves (s : Gen) (h : Hart) (s' : Gen) (rest : List SValue) (t : Scalar) : Prop :=
  ∃ h' v rest', Runs s h s' h' ∧ s'.vstack = v :: rest' ∧ Evolve h h' rest rest' ∧
    v.mustcast = 0 ∧ Canonical { v with type := t } h'

theorem gen_opil_leaves {op : Op} (hland : op ≠ TOK_LAND) (hlor : op ≠ TOK_LOR) {ll : Bool}
    {s s' : Gen} {v2 v1 : SValue} {rest : List SValue} {h : Hart} {t : Scalar}
    (hgen : gen_opil op ll s = some s') (hs : Operands s h v2 v1 rest)
    (ht : Scalar.isOperation t)
    (hnarrow : t.isNarrow = true → ll = false ∧ v1.type.isNarrow = true ∧ v2.type.isNarrow = true) :
    Leaves s h s' rest (resultOf op t) := by
  obtain ⟨h', v, rest', hrun, hs', hrest, hv⟩ := gen_opil_spec hland hlor hgen hs
  exact ⟨h', v, rest', hrun, hs', hrest, hv.settled, hv.canonical ht hnarrow⟩

theorem Leaves.after {s s₁ s' : Gen} {h h₁ : Hart} {rest rest₁ : List SValue} {t : Scalar}
    (hrun : Runs s h s₁ h₁) (hrest : Evolve h h₁ rest rest₁) (hleaves : Leaves s₁ h₁ s' rest₁ t) :
    Leaves s h s' rest t := by
  obtain ⟨h', v, rest', hrun', hs', hrest', hcast, hv⟩ := hleaves
  exact ⟨h', v, rest', hrun.trans hrun', hs', hrest.trans hrest', hcast, hv⟩

theorem constantShift_isCmp {op : Op} {l : BitVec 64} (h : constantShift op l = true) :
    op.isCmp = false := by
  cases op <;> first | rfl | simp [constantShift, Op.isShift] at h

theorem constantResult_isCmp {op : Op} {t : Scalar} {l : BitVec 64}
    (h : constantResult op t l = true) : op.isCmp = false := by
  cases op <;> first | rfl | simp [constantResult] at h

theorem noOperation_isCmp {op : Op} {t : Scalar} {l : BitVec 64}
    (h : noOperation op t l = true) : op.isCmp = false := by
  cases op <;> first | rfl | simp [noOperation, Op.isShift] at h

theorem shiftFor_eq_some {op op' : Op} {l : BitVec 64} {n : Nat}
    (h : shiftFor op l = some (op', n)) :
    op.isCmp = false ∧ op'.isCmp = false ∧ op' ≠ TOK_LAND ∧ op' ≠ TOK_LOR ∧ n < 64 := by
  unfold shiftFor at h
  split at h
  · rename_i hl
    have hlog : l.toNat.log2 < 64 := by
      have hne : l.toNat ≠ 0 := fun h0 => hl.1 (BitVec.eq_of_toNat_eq h0)
      exact (Nat.log2_lt hne).mpr l.isLt
    split at h
    · cases h
      exact ⟨rfl, rfl, by decide, by decide, hlog⟩
    · cases h
      exact ⟨rfl, rfl, by decide, by decide, hlog⟩
    · cases h
      exact ⟨rfl, rfl, by decide, by decide, hlog⟩
    · cases h
  · cases h

/-- The sum of an address and a constant is an address of the same type. -/
theorem addAddress_canonical {op : Op} {v v' : SValue} {l : BitVec 64} {h : Hart}
    (hadd : addAddress op v l = some v') (hv : Canonical v h) (hcast : v.mustcast = 0) :
    op.isCmp = false ∧ v'.type = v.type ∧ v'.mustcast = 0 ∧ Canonical v' h := by
  unfold addAddress at hadd
  simp only at hadd
  split at hadd
  · rename_i hop
    have hcmp : op.isCmp = false := by
      obtain rfl | rfl := hop <;> rfl
    split at hadd
    · rename_i s hloc
      rw [Option.ite_none_right_eq_some] at hadd
      obtain ⟨-, hadd⟩ := hadd
      cases hadd
      refine ⟨hcmp, rfl, hcast, hv.integer, fun hne => absurd hcast hne, nofun, nofun, ?_, nofun, nofun⟩
      exact fun _ _ => hv.symbol s hloc
    · rename_i c hloc
      rw [Option.ite_none_right_eq_some] at hadd
      obtain ⟨-, hadd⟩ := hadd
      cases hadd
      refine ⟨hcmp, rfl, hcast, hv.integer, fun hne => absurd hcast hne, nofun, nofun, nofun, ?_, nofun⟩
      exact fun _ _ => hv.local_ c hloc
    · cases hadd
  · cases hadd

theorem setTop_operands {s : Gen} {h : Hart} {x y : SValue} {rest : List SValue}
    (hs : Operands s h x y rest) {c : BitVec 64} (hc : x.type.isNarrow = true → WordConst c) :
    Operands (setTop s fun v => { v with loc := .VT_CONST c }) h { x with loc := .VT_CONST c } y
      rest := by
  obtain ⟨tx, lx, mx⟩ := x
  obtain rfl : mx = 0 := hs.settled2
  refine ⟨?_, canonical_const h hs.second.integer hc, hs.first, rfl, hs.settled1⟩
  rw [setTop, hs.stack]

theorem setTop_code (s : Gen) (f : SValue → SValue) : (setTop s f).code = s.code := by
  unfold setTop
  split <;> rfl

theorem wordConst_of_lt {n : Nat} (hn : n < 2 ^ 31) : WordConst (BitVec.ofNat 64 n) := by
  left
  apply isWord_of_toNat_lt
  rw [BitVec.toNat_ofNat, Nat.mod_eq_of_lt (lt_trans hn (by decide))]
  exact hn

theorem gen_opic_simplify_leaves {op : Op} (hland : op ≠ TOK_LAND) (hlor : op ≠ TOK_LOR)
    {t t2 : Scalar} {ll c1 c2 : Bool} {l1 l2 : BitVec 64} {s s' : Gen} {x y : SValue}
    {rest : List SValue} {h : Hart} (hgen : gen_opic_simplify op ll t2 c1 c2 l1 l2 s = some s')
    (hs : Operands s h x y rest) (ht : Scalar.isOperation t)
    (hnarrow : t.isNarrow = true → ll = false ∧ y.type.isNarrow = true ∧ x.type.isNarrow = true) :
    Leaves s h s' rest (resultOf op t) := by
  have hkeep {s₁ : Gen} {h₁ : Hart} {v : SValue} {rest₁ : List SValue} (hop : op.isCmp = false)
      (hrun : Runs s h s₁ h₁) (hs₁ : s₁.vstack = v :: rest₁) (hrest : Evolve h h₁ rest rest₁)
      (hcast : v.mustcast = 0) (hv : Canonical v h₁)
      (hn : t.isNarrow = true → v.type.isNarrow = true) : Leaves s h s₁ rest (resultOf op t) := by
    refine ⟨h₁, v, rest₁, hrun, hs₁, hrest, hcast, ?_⟩
    rw [resultOf, hop, if_neg (by decide)]
    exact hv.retype hcast (isOperation_integer ht) hn
  have hstay : Evolve h h rest rest := evolve_of_kept fun _ _ _ _ => rfl
  have hdrop (hop : op.isCmp = false) : Leaves s h (vdrop s) rest (resultOf op t) :=
    hkeep hop (Runs.refl rfl h) (by rw [vdrop, hs.stack, List.tail_cons]) hstay hs.settled1 hs.first
      fun hn => (hnarrow hn).2.1
  unfold gen_opic_simplify at hgen
  split at hgen
  · rename_i hc
    cases hgen
    exact hdrop (constantShift_isCmp (Bool.and_eq_true_iff.mp hc).2)
  split at hgen
  · rename_i hc
    have hop := constantResult_isCmp (Bool.and_eq_true_iff.mp hc).2
    obtain ⟨s₁, hswap, rfl⟩ := Option.map_eq_some_iff.mp hgen
    obtain ⟨s₀, x₀, hs₀, hcode, hx₀, hswap₀⟩ : ∃ s₀ x₀, Operands s₀ h x₀ y rest ∧
        s₀.code = s.code ∧ x₀.type = x.type ∧ vswap s₀ = some s₁ := by
      split at hswap
      · exact ⟨_, _, setTop_operands hs fun _ => wordConst_of_lt (n := 0) (by decide),
          setTop_code _ _, rfl, hswap⟩
      · exact ⟨s, x, hs, rfl, rfl, hswap⟩
    obtain ⟨h₁, x₁, y₁, rest₁, hrun, hs₁, hx₁, -, hrest⟩ := operands_vswap hswap₀ hs₀
    refine hkeep hop (Runs.trans (Runs.refl hcode h) (hrun.trans (Runs.refl rfl h₁)))
      (by rw [vdrop, hs₁.stack, List.tail_cons]) hrest hs₁.settled1 hs₁.first fun hn => ?_
    rw [hx₁, hx₀]
    exact (hnarrow hn).2.2
  split at hgen
  · rename_i hc
    cases hgen
    exact hdrop (noOperation_isCmp (Bool.and_eq_true_iff.mp hc).2)
  split at hgen
  · split at hgen
    · rename_i op' n hshift
      obtain ⟨hop, hop', hland', hlor', hn⟩ := shiftFor_eq_some hshift
      have hs₁ := setTop_operands hs fun _ => wordConst_of_lt (n := n) (by omega)
      have hleaves := gen_opil_leaves hland' hlor' hgen hs₁ ht hnarrow
      have hres : resultOf op' t = resultOf op t := by
        rw [resultOf, resultOf, hop, hop']
      rw [hres] at hleaves
      exact Leaves.after (Runs.refl (setTop_code _ _) h) hstay hleaves
    · simp only [hs.stack] at hgen
      split at hgen
      · rename_i v' hadd
        cases hgen
        obtain ⟨hop, htype, hcast, hv'⟩ := addAddress_canonical hadd hs.first hs.settled1
        refine hkeep hop (Runs.refl rfl h) rfl hstay hcast hv' fun hn => ?_
        rw [htype]
        exact (hnarrow hn).2.1
      · exact gen_opil_leaves hland hlor hgen hs ht hnarrow
  · exact gen_opil_leaves hland hlor hgen hs ht hnarrow

/-- A folded constant of a narrow type is normalised. -/
theorem wordConst_fold {op : Op} {t : Scalar} {v2 v1 : SValue} {c1 c2 l : BitVec 64}
    (hfold : gen_opic_const op v1.type v2.type c1 c2 = some l) (ht : OpTypes t v2 v1)
    (hn : (resultOf op t).isNarrow = true) : WordConst l := by
  obtain ⟨l', hl', rfl⟩ := Option.map_eq_some_iff.mp hfold
  by_cases hcmp : op.isCmp = true
  · rw [opic_op_cmp hcmp, Option.some.injEq] at hl'
    rw [← hl', opic_trunc_boolWord]
    exact wordConst_boolWord _
  · rw [resultOf, if_neg hcmp] at hn
    rw [ht.first]
    exact wordConst_opic_trunc (isOperation_narrow ht.operation hn) l'

/-- `gen_opic` on operands of an operation's types. -/
theorem gen_opic_leaves {op : Op} (hland : op ≠ TOK_LAND) (hlor : op ≠ TOK_LOR) {t : Scalar}
    {s s' : Gen} {v2 v1 : SValue} {rest : List SValue} {h : Hart}
    (hgen : gen_opic op s = some s') (hs : Operands s h v2 v1 rest) (ht : OpTypes t v2 v1) :
    Leaves s h s' rest (resultOf op t) := by
  have htint := isOperation_integer ht.operation
  have hnarrow (hn : t.isNarrow = true) : opic_ll v1.type v2.type = false ∧
      v1.type.isNarrow = true ∧ v2.type.isNarrow = true :=
    ⟨ht.ll_eq_false hn, by rw [ht.first]; exact hn, ht.narrow2 hn⟩
  unfold gen_opic at hgen
  rw [hs.stack] at hgen
  simp only at hgen
  split at hgen
  · rename_i c1 c2 _ _
    split at hgen
    · rename_i l hfold
      cases hgen
      refine ⟨h, _, rest, Runs.refl rfl h, rfl, evolve_of_kept fun _ _ _ _ => rfl, hs.settled1, ?_⟩
      obtain ⟨t1, l1, m1⟩ := v1
      obtain rfl : m1 = 0 := hs.settled1
      refine canonical_const h ?_ ?_
      · unfold resultOf
        split
        · rfl
        · exact htint
      · exact fun hn => wordConst_fold hfold ht hn
    · exact gen_opil_leaves hland hlor hgen hs ht.operation hnarrow
  · split at hgen
    · simp only [Option.bind_eq_bind, Option.bind_eq_some_iff] at hgen
      obtain ⟨s₁, hswap, hgen⟩ := hgen
      obtain ⟨h₁, a', b', rest₁, hrun₁, hs₁, ha, hb, hrest₁⟩ := operands_vswap hswap hs
      refine Leaves.after hrun₁ hrest₁ (gen_opic_simplify_leaves hland hlor hgen hs₁ ht.operation ?_)
      intro hn
      rw [ha, hb]
      exact ⟨(hnarrow hn).1, (hnarrow hn).2.2, (hnarrow hn).2.1⟩
    · exact gen_opic_simplify_leaves hland hlor hgen hs ht.operation hnarrow

/-- A value of type `t`, settled and canonical, on top of the stack. -/
def Yields (s : Gen) (h : Hart) (s' : Gen) (rest : List SValue) (t : Scalar) : Prop :=
  ∃ h' v rest', Runs s h s' h' ∧ s'.vstack = v :: rest' ∧ Evolve h h' rest rest' ∧
    v.type = t ∧ v.mustcast = 0 ∧ Canonical v h'

theorem Yields.after {s s₁ s' : Gen} {h h₁ : Hart} {rest rest₁ : List SValue} {t : Scalar}
    (hrun : Runs s h s₁ h₁) (hrest : Evolve h h₁ rest rest₁) (hyields : Yields s₁ h₁ s' rest₁ t) :
    Yields s h s' rest t := by
  obtain ⟨h', v, rest', hrun', hs', hrest', htype, hcast, hv⟩ := hyields
  exact ⟨h', v, rest', hrun.trans hrun', hs', hrest.trans hrest', htype, hcast, hv⟩

theorem gen_op_unsigned_isCmp (t : Scalar) (op : Op) :
    (gen_op_unsigned t op).isCmp = op.isCmp := by
  unfold gen_op_unsigned
  split
  · cases op <;> rfl
  · rfl

theorem gen_op_unsigned_ne {t : Scalar} {op op' : Op} (hop : op ≠ op')
    (hop' : op'.unsigned = false) : gen_op_unsigned t op ≠ op' := by
  unfold gen_op_unsigned
  split
  · intro h
    cases op <;> first | exact hop h | (rw [← h] at hop'; exact absurd hop' (by decide))
  · exact hop

/-- The end of `gen_op` gives a canonical value of the result type. -/
theorem gen_op_typed_yields {op : Op} (hland : op ≠ TOK_LAND) (hlor : op ≠ TOK_LOR) {t : Scalar}
    {s s' : Gen} {v2 v1 : SValue} {rest : List SValue} {h : Hart}
    (hgen : gen_op_typed t op s = some s') (hs : Operands s h v2 v1 rest) (ht : OpTypes t v2 v1) :
    Yields s h s' rest (resultOf op t) := by
  simp only [gen_op_typed, Option.bind_eq_bind, Option.bind_eq_some_iff] at hgen
  obtain ⟨s₁, hopic, hgen⟩ := hgen
  obtain ⟨h₁, v, rest₁, hrun₁, hs₁, hrest₁, hcast, hv⟩ := gen_opic_leaves
    (gen_op_unsigned_ne hland rfl) (gen_op_unsigned_ne hlor rfl) hopic hs ht
  rw [show resultOf (gen_op_unsigned t op) t = resultOf op t by
    rw [resultOf, resultOf, gen_op_unsigned_isCmp]] at hv
  have hset : setTop s₁ (fun v => { v with type := if op.isCmp then .int else t }) =
      { s₁ with vstack := { v with type := resultOf op t } :: rest₁ } := by
    rw [setTop, hs₁]
    rfl
  rw [hset] at hgen
  refine Yields.after hrun₁ hrest₁ ?_
  split at hgen
  · simp only [Option.bind_eq_some_iff, Option.pure_def, Option.some.injEq] at hgen
    obtain ⟨⟨r, s₂⟩, hgv, rfl⟩ := hgen
    obtain ⟨h₂, rest₂, hrun₂, hs₂, htop, hrest₂⟩ := gv_evolve hgv rfl hv hcast
    exact ⟨h₂, _, rest₂, hrun₂, hs₂, hrest₂, rfl, rfl, htop.canonical hv⟩
  · cases hgen
    exact ⟨h₁, _, rest₁, Runs.refl rfl h₁, rfl, evolve_of_kept fun _ _ _ _ => rfl, rfl, hcast, hv⟩

theorem signExtend_ofNat {n : Nat} (hn : n < 64) :
    (BitVec.ofNat 32 n).signExtend 64 = BitVec.ofNat 64 n := by
  apply BitVec.eq_of_toInt_eq
  rw [toInt_signExtend, BitVec.toInt_ofNat', BitVec.toInt_ofNat', Int.bmod_eq_of_le,
    Int.bmod_eq_of_le] <;> omega

theorem immediate_ofNat {s : Gen} {t : Scalar} {n m : Nat} {rest : List SValue} (hn : n < 64)
    (hs : s.vstack = ⟨t, .VT_CONST (BitVec.ofNat 64 n), m⟩ :: rest) :
    immediate s = some (BitVec.ofNat 32 n) := by
  have hlow : (BitVec.ofNat 64 n).setWidth 32 = BitVec.ofNat 32 n :=
    BitVec.setWidth_ofNat_of_le (by decide) n
  have hsmall : large (BitVec.ofNat 32 n) = false := by
    rw [large, bne_eq_false_iff_eq, ← BitVec.toNat_inj, BitVec.toNat_ushiftRight,
      Nat.shiftRight_eq_div_pow, BitVec.toNat_add]
    simp only [BitVec.toNat_ofNat]
    omega
  simp only [immediate, hs, hlow]
  exact if_pos ⟨signExtend_ofNat hn, hsmall⟩

theorem isShift_cases {op : Op} (hop : op.isShift = true) :
    op = TOK_SHL ∨ op = TOK_SAR ∨ op = TOK_SHR := by
  cases op with
  | TOK_SHL | TOK_SAR | TOK_SHR => simp
  | _ => cases hop

/-- A shift of a register by a constant has an immediate form. -/
theorem gen_opil_imm_shift {op : Op} (hop : op.isShift = true) (ll : Bool) (fc : BitVec 32) :
    ∃ w f3 imm, gen_opil_imm op ll fc = .cop w f3 imm := by
  obtain rfl | rfl | rfl := isShift_cases hop
  · exact ⟨_, _, _, rfl⟩
  · exact ⟨_, _, _, rfl⟩
  · exact ⟨_, _, _, rfl⟩

/-- A shift of a register by a constant: the value it computes. -/
theorem gen_opil_shift_spec {op : Op} (hop : op.isShift = true) {ll : Bool} {s s' : Gen}
    {t w : Scalar} {a : Reg} {n : Nat} (hn : n < 64) {m m' : Nat} {rest : List SValue} {h : Hart}
    (hgen : gen_opil op ll s = some s')
    (hs : s.vstack = ⟨t, .VT_CONST (BitVec.ofNat 64 n), m⟩ :: ⟨w, .reg a, m'⟩ :: rest) :
    ∃ h' d rest', Runs s h s' h' ∧ s'.vstack = ⟨w, .reg d, 0⟩ :: rest' ∧ Evolve h h' rest rest' ∧
      h'.get (ireg d) = opil_value op ll (h.get (ireg a)) (BitVec.ofNat 64 n) := by
  have himm := immediate_ofNat hn hs
  have hfc := (immediate_eq_some himm).1
  have hcmp : op.isCmp = false := by
    obtain rfl | rfl | rfl := isShift_cases hop <;> rfl
  obtain ⟨wf, f3, imm, hform⟩ := gen_opil_imm_shift hop ll (BitVec.ofNat 32 n)
  simp only [gen_opil, himm, hform, gen_opil_cop, Option.bind_eq_bind,
    Option.bind_eq_some_iff] at hgen
  obtain ⟨⟨a', d, s₁⟩, hprep, instr, hinstr, hend⟩ := hgen
  simp only [gen_opil_prep, Option.bind_eq_bind, Option.bind_eq_some_iff] at hprep
  obtain ⟨s₂, hswap, ⟨q, s₃⟩, hgv, hprep⟩ := hprep
  obtain rfl := vswap_of_const hswap hs
  simp only [gv, Option.some.injEq, Prod.mk.injEq] at hgv
  obtain ⟨rfl, rfl⟩ := hgv
  simp only [Option.bind_eq_some_iff, Option.pure_def, Option.some.injEq, Prod.mk.injEq] at hprep
  obtain ⟨⟨d', s₄⟩, hget, s₅, hswap₅, rfl, rfl, rfl⟩ := hprep
  obtain ⟨h₁, hrun₁, hregs, hevolve, hfree⟩ := get_reg_spec hget h
  obtain ⟨k', rest₁, -, hrest₁, hs₄⟩ := List.forall₂_cons_left_iff.mp hevolve
  obtain rfl := vswap_of_reg hswap₅ (by simp only [hs₄]; rfl)
  simp only [hcmp, Bool.false_eq_true, if_false, Option.pure_def, Option.some.injEq] at hend
  subst hend
  obtain ⟨h₂, hrun₂, hset⟩ := gen_opil_imm_run hform (ireg_ne_zero d') hinstr hfc h₁
  refine ⟨h₂, d', rest₁, hrun₁.trans ⟨[instr], rfl, hrun₂⟩, rfl,
    Evolve.trans hrest₁ (evolve_of_frame hset.frame fun v hv =>
      hfree v (by rw [hs₄]; exact List.mem_cons_of_mem _ hv)), ?_⟩
  rw [hset.value, hregs, signExtend_ofNat hn]

theorem opic_trunc_ofNat {n : Nat} (hn : n < 64) :
    opic_trunc .int (BitVec.ofNat 64 n) = BitVec.ofNat 64 n := by
  rw [opic_trunc_int, BitVec.setWidth_ofNat_of_le (by decide), signExtend_ofNat hn]

/-- The value of a register after a shift by a constant, as `gen_op` emits it. -/
def shifted (w : Scalar) (op : Op) (x : BitVec 64) (n : Nat) : BitVec 64 :=
  if n = 0 then x
  else opil_value (gen_op_unsigned w op) (w.bt == VT_LLONG) x (BitVec.ofNat 64 n)

theorem gen_op_unsigned_isShift {w : Scalar} {op : Op} (hop : op.isShift = true) :
    (gen_op_unsigned w op).isShift = true := by
  unfold gen_op_unsigned
  split
  · obtain rfl | rfl | rfl := isShift_cases hop <;> rfl
  · exact hop

theorem gen_op_typed_shift {op : Op} (hop : op.isShift = true) {s s' : Gen} {w : Scalar}
    (hw : Scalar.isOperation w) {a : Reg} {n : Nat} (hn : n < 64)
    {rest : List SValue} {h : Hart} (hgen : gen_op_typed w op s = some s')
    (hs : s.vstack = ⟨.int, .VT_CONST (BitVec.ofNat 64 n), 0⟩ :: ⟨w, .reg a, 0⟩ :: rest) :
    ∃ h' d rest', Runs s h s' h' ∧ s'.vstack = ⟨w, .reg d, 0⟩ :: rest' ∧
      Evolve h h' rest rest' ∧ h'.get (ireg d) = shifted w op (h.get (ireg a)) n := by
  have hshift := gen_op_unsigned_isShift (w := w) hop
  have hll : opic_ll w .int = (w.bt == VT_LLONG) := by
    obtain hbt | hbt := hw <;> rw [opic_ll, hbt] <;> rfl
  have hcmp : op.isCmp = false := by
    obtain rfl | rfl | rfl := isShift_cases hop <;> rfl
  simp only [gen_op_typed, Option.bind_eq_bind, Option.bind_eq_some_iff] at hgen
  obtain ⟨s₁, hopic, hgen⟩ := hgen
  obtain ⟨h₁, d, rest₁, hrun, hs₁, hrest, hval⟩ : ∃ h₁ d rest₁, Runs s h s₁ h₁ ∧
      s₁.vstack = ⟨w, .reg d, 0⟩ :: rest₁ ∧ Evolve h h₁ rest rest₁ ∧
        h₁.get (ireg d) = shifted w op (h.get (ireg a)) n := by
    generalize hop' : gen_op_unsigned w op = op' at *
    have hresult : constantResult op' .int (BitVec.ofNat 64 n) = false := by
      obtain rfl | rfl | rfl := isShift_cases hshift <;> simp [constantResult]
    have hnop : noOperation op' .int (BitVec.ofNat 64 n) = (BitVec.ofNat 64 n == 0#64) := by
      obtain rfl | rfl | rfl := isShift_cases hshift <;> exact Bool.or_false _
    have hfor : shiftFor op' (BitVec.ofNat 64 n) = none := by
      obtain rfl | rfl | rfl := isShift_cases hshift <;> simp [shiftFor]
    have hadd (v : SValue) (l : BitVec 64) : addAddress op' v l = none := by
      obtain rfl | rfl | rfl := isShift_cases hshift <;> simp [addAddress]
    simp only [gen_opic, hs, SValue.const?, Option.isSome_none, Bool.false_and, Bool.false_eq_true,
      if_false, Option.isSome_some, Option.getD_some, opic_trunc_ofNat hn, gen_opic_simplify,
      hresult, hnop, hfor, hadd, Bool.true_and, Bool.and_false, if_true, beq_iff_eq] at hopic
    split at hopic
    · rename_i hzero
      have hn0 : n = 0 := by
        have := congrArg BitVec.toNat hzero
        rw [BitVec.toNat_ofNat, Nat.mod_eq_of_lt (by omega)] at this
        exact this
      cases hopic
      refine ⟨h, a, rest, Runs.refl rfl h, by rw [vdrop, hs, List.tail_cons],
        evolve_of_kept fun _ _ _ _ => rfl, ?_⟩
      rw [shifted, if_pos hn0]
    · rename_i hne
      obtain ⟨h₁, d, rest₁, hrun, hs₁, hrest, hval⟩ := gen_opil_shift_spec hshift hn hopic hs
      have hn0 : n ≠ 0 := by
        rintro rfl
        exact hne rfl
      refine ⟨h₁, d, rest₁, hrun, hs₁, hrest, ?_⟩
      rw [shifted, if_neg hn0, hop', hval, hll]
  have hset : setTop s₁ (fun v => { v with type := if op.isCmp then .int else w }) = s₁ := by
    rw [setTop, hs₁, hcmp]
    simp only [Bool.false_eq_true, if_false]
    rw [← hs₁]
  rw [hset, hs₁] at hgen
  simp only [Option.pure_def, Option.some.injEq] at hgen
  subst hgen
  exact ⟨h₁, d, rest₁, hrun, hs₁, hrest, hval⟩

theorem vpushi_of_reg {s s' : Gen} {t : Scalar} {r : Reg} {m n : Nat} {rest : List SValue}
    (hpush : vpushi s n = some s') (hs : s.vstack = ⟨t, .reg r, m⟩ :: rest) :
    s' = { s with vstack := ⟨.int, .VT_CONST (BitVec.ofNat 64 n), 0⟩ :: ⟨t, .reg r, m⟩ :: rest } := by
  simp only [vpushi, vpush, vcheck_cmp, hs, Option.bind_eq_bind, Option.bind_some, Option.pure_def,
    Option.some.injEq] at hpush
  exact hpush.symm

/-- The value `cast_shifts` makes of a register. -/
def castShifted (w : Scalar) (bits trunc : Nat) (x : BitVec 64) : BitVec 64 :=
  shifted w TOK_SHR (shifted w TOK_SAR (shifted w TOK_SHL x bits) (bits - trunc)) trunc

theorem cast_shifts_spec {w : Scalar} (hw : Scalar.isOperation w) {bits trunc : Nat}
    (hbits : bits < 64) (htrunc : trunc ≤ bits) {s s' : Gen} {t : Scalar} {a : Reg}
    {rest : List SValue} {h : Hart} (hcast : cast_shifts w bits trunc s = some s')
    (hs : s.vstack = ⟨t, .reg a, 0⟩ :: rest) :
    ∃ h' d rest', Runs s h s' h' ∧ s'.vstack = ⟨w, .reg d, 0⟩ :: rest' ∧ Evolve h h' rest rest' ∧
      h'.get (ireg d) = castShifted w bits trunc (h.get (ireg a)) := by
  simp only [cast_shifts, Option.bind_eq_bind, Option.bind_eq_some_iff] at hcast
  obtain ⟨s₁, hpush₁, s₂, hshl, s₃, hpush₂, s₄, hsar, s₅, hpush₃, hshr⟩ := hcast
  have hretype : (retype w s).vstack = ⟨w, .reg a, 0⟩ :: rest := by
    rw [retype, setTop, hs]
  obtain rfl := vpushi_of_reg hpush₁ hretype
  obtain ⟨h₁, d₁, rest₁, hrun₁, hs₂, hrest₁, hval₁⟩ := gen_op_typed_shift (h := h) rfl hw hbits hshl rfl
  obtain rfl := vpushi_of_reg hpush₂ hs₂
  obtain ⟨h₂, d₂, rest₂, hrun₂, hs₄, hrest₂, hval₂⟩ :=
    gen_op_typed_shift (h := h₁) rfl hw (by omega : bits - trunc < 64) hsar rfl
  obtain rfl := vpushi_of_reg hpush₃ hs₄
  obtain ⟨h₃, d₃, rest₃, hrun₃, hs₅, hrest₃, hval₃⟩ :=
    gen_op_typed_shift (h := h₂) rfl hw (by omega : trunc < 64) hshr rfl
  refine ⟨h₃, d₃, rest₃, ?_, hs₅, (hrest₁.trans hrest₂).trans hrest₃, ?_⟩
  · have hrun : Runs s h (retype w s) h := Runs.refl (setTop_code _ _) h
    exact ((hrun.trans hrun₁).trans hrun₂).trans hrun₃
  · rw [hval₃, hval₂, hval₁, castShifted]

theorem shifted_int_isWord {op : Op} (hop : op.isShift = true) {u : Bool} {x : BitVec 64} {n : Nat}
    (hn : n ≠ 0) : IsWord (shifted ⟨VT_INT, u⟩ op x n) := by
  have hshift := gen_op_unsigned_isShift (w := ⟨VT_INT, u⟩) hop
  rw [shifted, if_neg hn]
  obtain h | h | h := isShift_cases hshift <;> rw [h] <;>
    exact isWord_signExtend (by decide) _

/-- A `long long` shifted up and down again by `32` bits or more is a word, and
    by `32` bits as unsigned when bit 31 is clear. -/
theorem castShifted_isWord {u : Bool} {bits : Nat} (hlo : 32 ≤ bits) (hhi : bits < 64)
    {x : BitVec 64} (hbit : u = true → bits = 32 → x.getLsbD 31 = false) :
    IsWord (castShifted ⟨VT_LLONG, u⟩ bits 0 x) := by
  have hne : bits ≠ 0 := by omega
  have hmod : (BitVec.ofNat 64 bits).toNat % 64 = bits := by
    rw [BitVec.toNat_ofNat]
    omega
  rw [castShifted, Nat.sub_zero, shifted, if_pos rfl, shifted, if_neg hne, shifted, if_neg hne]
  cases u with
  | false =>
    change IsWord (BitVec.sshiftRight _ ((BitVec.ofNat 64 bits).toNat % 64))
    rw [hmod]
    exact isWord_sshiftRight hlo _
  | true =>
    change IsWord ((x <<< ((BitVec.ofNat 64 bits).toNat % 64)) >>>
      ((BitVec.ofNat 64 bits).toNat % 64))
    rw [hmod]
    exact isWord_shiftUpDown hlo hhi (hbit rfl)

end tcc.riscv64
