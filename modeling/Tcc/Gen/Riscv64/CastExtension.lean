import Tcc.Gen.Riscv64.SignExtension

open machine machine.rv64

namespace tcc.riscv64

open BType tcc.Op

theorem isInteger_cases {t : Scalar} (ht : t.isInteger = true) :
    t.bt = VT_BYTE ∨ t.bt = VT_SHORT ∨ t.bt = VT_INT ∨ t.bt = VT_LLONG ∨ t.bt = VT_PTR ∨
      t.bt = VT_BOOL := by
  obtain ⟨bt, u⟩ := t
  cases bt <;> simp_all [Scalar.isInteger]

theorem isInteger_size {t : Scalar} (ht : t.isInteger = true) :
    t.isNarrow = true ∧ btype_size t.bt ≤ 4 ∧ 1 ≤ btype_size t.bt ∨
      t.isNarrow = false ∧ btype_size t.bt = 8 := by
  obtain h | h | h | h | h | h := isInteger_cases ht <;> simp [Scalar.isNarrow, h, btype_size]

/-- The mask of a type narrower than a register. -/
theorem narrow_mask {t : Scalar} (ht : t.isInteger = true) (hn : t.isNarrow = true)
    (hbool : t.bt ≠ VT_BOOL) : ∃ k, 0 < k ∧ k ≤ 32 ∧
      (if t.bt = VT_BYTE then 0xff#64 else if t.bt = VT_SHORT then 0xffff#64 else 0xffffffff#64) =
        BitVec.ofNat 64 (2 ^ k - 1) ∧
      BitVec.ofNat 64 (2 ^ k - 1) >>> 1 + 1#64 = BitVec.twoPow 64 (k - 1) := by
  obtain h | h | h | h | h | h := isInteger_cases ht
  · exact ⟨8, by decide, by decide, by rw [h]; rfl, by decide⟩
  · exact ⟨16, by decide, by decide, by rw [h]; rfl, by decide⟩
  · exact ⟨32, by decide, by decide, by rw [h]; rfl, by decide⟩
  · rw [Scalar.isNarrow, h] at hn
    cases hn
  · rw [Scalar.isNarrow, h] at hn
    cases hn
  · exact absurd h hbool

/-- A constant cast to a narrow type is normalised. -/
theorem wordConst_cast {st dt : Scalar} (hdt : dt.isInteger = true) (hn : dt.isNarrow = true)
    (c : BitVec 64) : WordConst (cast_const st dt c) := by
  have hwide : ¬(dt.bt = VT_LLONG ∨ dt.bt = VT_PTR) := by
    rintro (h | h) <;> rw [Scalar.isNarrow, h] at hn <;> cases hn
  unfold cast_const
  generalize (if st.bt = VT_LLONG ∨ st.bt = VT_PTR then c
    else if st.unsigned then (c.setWidth 32).setWidth 64
    else (c.setWidth 32).setWidth 64 ||| -(c &&& 0x80000000#64)) = x
  simp only [if_neg hwide]
  split
  · exact wordConst_boolWord _
  · rename_i hbool
    obtain ⟨k, hpos, hk, hmask, hsign⟩ := narrow_mask hdt hn hbool
    have hand : x &&& BitVec.ofNat 64 (2 ^ k - 1) = (x.setWidth k).setWidth 64 := by
      apply BitVec.eq_of_toNat_eq
      have hpow : 2 ^ k ≤ 2 ^ 32 := Nat.pow_le_pow_right (by decide) hk
      have hlt : x.toNat % 2 ^ k < 2 ^ k := Nat.mod_lt _ (Nat.two_pow_pos k)
      rw [BitVec.toNat_and, BitVec.toNat_ofNat, Nat.mod_eq_of_lt (by omega),
        Nat.and_two_pow_sub_one_eq_mod, BitVec.toNat_setWidth, BitVec.toNat_setWidth,
        Nat.mod_eq_of_lt (a := x.toNat % 2 ^ k) (by omega)]
    rw [hmask, hsign, hand]
    split
    · right
      apply BitVec.eq_of_toNat_eq
      have hpow : 2 ^ k ≤ 2 ^ 32 := Nat.pow_le_pow_right (by decide) hk
      have := (x.setWidth k).isLt
      simp only [BitVec.toNat_setWidth] at *
      omega
    · left
      rw [or_neg_signBit hpos (by omega)]
      exact isWord_signExtend hk _

/-- An 8-byte value that a cast to `unsigned int` brings into a register has bit
    31 clear there. -/
def CastOk (dt : Scalar) (s : Gen) (h : Hart) : Prop :=
  dt = .uint → ∀ top rest, s.vstack = top :: rest → btype_size top.type.bt = 8 →
    top.const? = none → top.isLval = false →
    ∀ r s₁ h₁, gv (if top.type.bt = VT_PTR then tcc.riscv64.retype .llong s else s) = some (r, s₁) →
      Runs s h s₁ h₁ → (h₁.get (ireg r)).getLsbD 31 = false

theorem evolve_refl (h : Hart) (vs : List SValue) : Evolve h h vs vs :=
  evolve_of_kept fun _ _ _ _ => rfl

theorem retype_eq {s : Gen} {v : SValue} {rest : List SValue} (hs : s.vstack = v :: rest)
    (t : Scalar) : retype t s = { s with vstack := { v with type := t } :: rest } := by
  rw [retype, setTop, hs]

/-- A register at the end of a cast, under its new type. -/
theorem yields_retype {s s₁ : Gen} {h h₁ : Hart} {r : Reg} {t dt : Scalar}
    {rest rest₁ : List SValue} (hrun : Runs s h s₁ h₁) (hs₁ : s₁.vstack = ⟨t, .reg r, 0⟩ :: rest₁)
    (hrest : Evolve h h₁ rest rest₁) (hdt : dt.isInteger = true)
    (hword : dt.isNarrow = true → IsWord (h₁.get (ireg r))) :
    Yields s h (retype dt s₁) rest dt := by
  rw [retype_eq hs₁]
  exact ⟨h₁, ⟨dt, .reg r, 0⟩, rest₁, hrun.trans (Runs.refl rfl h₁), rfl, hrest, rfl, rfl,
    canonical_reg hdt hword⟩

theorem castShifted_int_isWord {u : Bool} {bits : Nat} (hbits : bits ≠ 0) (x : BitVec 64) :
    IsWord (castShifted ⟨VT_INT, u⟩ bits 0 x) := by
  rw [castShifted, Nat.sub_zero, shifted, if_pos rfl]
  exact shifted_int_isWord rfl hbits

/-- The shifts at the end of a cast of a register to a type of `ds` bytes. -/
theorem cast_shifts_yields {s s' : Gen} {h : Hart} {r : Reg} {t dt : Scalar} {rest : List SValue}
    {ss : Nat} (hss : ss = 8 ∨ ss = 4) (hdt : dt.isInteger = true)
    (hds : btype_size dt.bt < ss) (hs : s.vstack = ⟨t, .reg r, 0⟩ :: rest)
    (hok : ss = 8 → dt.unsigned = true → btype_size dt.bt = 4 →
      (h.get (ireg r)).getLsbD 31 = false)
    (hcast : cast_shifts ⟨if ss = 8 then VT_LLONG else VT_INT, dt.unsigned⟩
      ((ss - btype_size dt.bt) * 8) 0 s = some s') :
    Yields s h (retype dt s') rest dt := by
  have hpos : 1 ≤ btype_size dt.bt ∧ btype_size dt.bt ≤ 4 := by
    obtain ⟨-, hle, hpos⟩ | ⟨-, heq⟩ := isInteger_size hdt <;> omega
  have hw : Scalar.isOperation ⟨if ss = 8 then VT_LLONG else VT_INT, dt.unsigned⟩ := by
    obtain rfl | rfl := hss
    · exact Or.inr rfl
    · exact Or.inl rfl
  obtain ⟨h', d, rest', hrun, hs', hrest, hval⟩ :=
    cast_shifts_spec (h := h) hw (by omega) (Nat.zero_le _) hcast hs
  refine yields_retype hrun hs' hrest hdt fun _ => ?_
  rw [hval]
  obtain rfl | rfl := hss
  · rw [if_pos rfl]
    refine castShifted_isWord (by omega) (by omega) fun hu hbits => hok rfl hu (by omega)
  · rw [if_neg (by decide)]
    exact castShifted_int_isWord (by omega) _

theorem uint_of_size {dt : Scalar} (hdt : dt.isInteger = true) (hu : dt.unsigned = true)
    (hsize : btype_size dt.bt = 4) : dt = .uint := by
  obtain ⟨bt, u⟩ := dt
  obtain rfl : u = true := hu
  obtain h | h | h | h | h | h := isInteger_cases hdt <;> obtain rfl : bt = _ := h <;>
    first | rfl | cases hsize

/-- `gen_cast` of a settled value to an integer type other than `_Bool`. -/
theorem gen_cast_core_yields {dt : Scalar} {s s' : Gen} {top : SValue} {rest : List SValue}
    {h : Hart} (hgen : gen_cast_core dt s = some s') (hs : s.vstack = top :: rest)
    (htop : Canonical top h) (hcast : top.mustcast = 0) (hdt : dt.isInteger = true)
    (hok : CastOk dt s h) : Yields s h s' rest dt := by
  obtain ⟨st, loc, m⟩ := top
  obtain rfl : m = 0 := hcast
  have hst : st.isInteger = true := htop.integer
  have hretype {t : Scalar} (ht : t.isInteger = true)
      (hn : t.isNarrow = true → st.isNarrow = true) :
      Yields s h (retype t s) rest t := by
    rw [retype_eq hs]
    exact ⟨h, _, rest, Runs.refl rfl h, rfl, evolve_refl h rest, rfl, rfl,
      htop.retype rfl ht hn⟩
  unfold gen_cast_core at hgen
  simp only [hs] at hgen
  split at hgen
  · rename_i heq
    cases hgen
    subst heq
    exact ⟨h, _, rest, Runs.refl rfl h, hs, evolve_refl h rest, rfl, rfl, htop⟩
  split at hgen
  · cases hgen
    exact ⟨h, _, rest, Runs.refl rfl h, rfl, evolve_refl h rest, rfl, rfl,
      canonical_const h hdt fun hn => wordConst_cast hdt hn _⟩
  rename_i hconst
  split at hgen
  · cases hgen
  split at hgen
  · rename_i hsize
    cases hgen
    refine hretype hdt fun hn => ?_
    rw [Scalar.isNarrow, decide_eq_true_iff] at hn ⊢
    omega
  obtain ⟨s₀, hs₀, hcode₀, hstack₀⟩ : ∃ s₀ : Gen,
      (if st.bt = VT_PTR then retype .llong s else s) = s₀ ∧ s₀.code = s.code ∧
        ∃ t₀ : Scalar, s₀.vstack = ⟨t₀, loc, 0⟩ :: rest ∧ Canonical ⟨t₀, loc, 0⟩ h ∧
          t₀.isNarrow = st.isNarrow := by
    split
    · rename_i hptr
      refine ⟨_, rfl, setTop_code _ _, .llong, by rw [retype_eq hs],
        htop.retype rfl rfl (fun hn => by cases hn), ?_⟩
      rw [Scalar.isNarrow, Scalar.isNarrow, hptr]
      rfl
    · exact ⟨s, rfl, rfl, st, hs, htop, rfl⟩
  obtain ⟨t₀, hvs₀, htop₀, hnarrow₀⟩ := hstack₀
  simp only [hs₀] at hgen
  split at hgen
  · rename_i hlval
    cases hgen
    rw [retype_eq hvs₀]
    refine ⟨h, _, rest, Runs.refl hcode₀ h, rfl, evolve_refl h rest, rfl, rfl, ?_⟩
    cases loc with
    | lval a =>
      refine ⟨hdt, fun hne => absurd rfl hne, fun _ hloc => ?_, fun _ hloc => ?_, fun _ hloc => ?_,
        fun _ hloc => ?_, fun _ _ _ hloc => ?_⟩
      all_goals cases hloc
    | _ => cases hlval.1
  rename_i hlarger
  simp only [Option.bind_eq_bind, Option.bind_eq_some_iff] at hgen
  obtain ⟨⟨r, s₁⟩, hgv, hgen⟩ := hgen
  obtain ⟨h₁, rest₁, hrun₁, hs₁, hreg, hrest₁⟩ := gv_spec hgv hvs₀ htop₀ (gvOk_of_settled htop₀ rfl)
  have hrun : Runs s h s₁ h₁ := (Runs.refl hcode₀ h).trans hrun₁
  have hword : st.isNarrow = true → IsWord (h₁.get (ireg r)) := fun hn =>
    hreg.word r rfl rfl (hnarrow₀.trans hn)
  have hsizes := isInteger_size hst
  have hdsizes := isInteger_size hdt
  split at hgen
  · rename_i hsub
    cases hgen
    refine yields_retype hrun hs₁ hrest₁ hdt fun _ => hword ?_
    rw [Scalar.isNarrow, decide_eq_true_iff]
    have := hsub.2.1
    have : ¬btype_size dt.bt ≤ btype_size st.bt := fun hle => hlarger ⟨hsub.1, hle⟩
    omega
  split at hgen
  · rename_i hds
    have hwide : dt.isNarrow = false := by
      rw [Scalar.isNarrow, hds]
      rfl
    split at hgen
    · simp only [Option.bind_eq_some_iff, Option.pure_def, Option.some.injEq] at hgen
      obtain ⟨s₂, hshifts, rfl⟩ := hgen
      obtain ⟨h₂, d, rest₂, hrun₂, hs₂, hrest₂, -⟩ :=
        cast_shifts_spec (h := h₁) (Or.inr rfl) (by decide) (le_refl _) hshifts hs₁
      refine yields_retype (hrun.trans hrun₂) hs₂ (hrest₁.trans hrest₂) hdt fun hn => ?_
      rw [hwide] at hn
      cases hn
    · cases hgen
      refine yields_retype hrun hs₁ hrest₁ hdt fun hn => ?_
      rw [hwide] at hn
      cases hn
  rename_i hds
  have hss : (if btype_size st.bt = 8 then 8 else 4) = 8 ∨
      (if btype_size st.bt = 8 then 8 else 4) = 4 := by
    split <;> simp
  generalize hss' : (if btype_size st.bt = 8 then 8 else 4) = ss at hgen hss
  split at hgen
  · rename_i hle
    cases hgen
    refine yields_retype hrun hs₁ hrest₁ hdt fun _ => hword ?_
    obtain ⟨hn, -, -⟩ | ⟨-, heq⟩ := hsizes
    · exact hn
    · rw [if_pos heq] at hss'
      omega
  · rename_i hnle
    simp only [Option.bind_eq_some_iff, Option.pure_def, Option.some.injEq] at hgen
    obtain ⟨s₂, hshifts, rfl⟩ := hgen
    refine Yields.after hrun hrest₁
      (cast_shifts_yields (h := h₁) hss hdt (Nat.lt_of_not_le hnle) hs₁ ?_ hshifts)
    intro hss8 hu hsize
    have hst8 : btype_size st.bt = 8 := by
      by_contra hne
      rw [if_neg hne] at hss'
      omega
    refine hok (uint_of_size hdt hu hsize) _ rest hs hst8 ?_ ?_ r s₁ h₁ ?_ hrun
    · cases loc with
      | VT_CONST c => exact absurd rfl (hconst c)
      | _ => rfl
    · cases loc with
      | lval a => exact absurd ⟨rfl, by omega⟩ hlarger
      | _ => rfl
    · simp only [hs₀]
      exact hgv

/-- A register that holds anything, cast to `char` or `short` by shifts. -/
theorem gen_cast_core_force {st dt : Scalar} {s s' : Gen} {r : Reg} {rest : List SValue} {h : Hart}
    (hgen : gen_cast_core dt s = some s') (hs : s.vstack = ⟨st, .reg r, 0⟩ :: rest)
    (hst : st = .int ∨ st = .llong) (hdt : dt.bt = VT_BYTE ∨ dt.bt = VT_SHORT) :
    Yields s h s' rest dt := by
  have hint : dt.isInteger = true := by
    obtain hbt | hbt := hdt <;> rw [Scalar.isInteger, hbt]
  have hds : btype_size dt.bt = 1 ∨ btype_size dt.bt = 2 := by
    obtain hbt | hbt := hdt <;> rw [hbt]
    · exact Or.inl rfl
    · exact Or.inr rfl
  have hss : btype_size st.bt = 4 ∨ btype_size st.bt = 8 := by
    obtain rfl | rfl := hst
    · exact Or.inl rfl
    · exact Or.inr rfl
  have hne : st ≠ dt := by
    rintro rfl
    omega
  have hptr : st.bt ≠ VT_PTR := by
    obtain rfl | rfl := hst <;> decide
  unfold gen_cast_core at hgen
  simp only [hs, if_neg hne, if_neg hptr] at hgen
  rw [if_neg (by omega), if_neg (by omega), if_neg (by simp [SValue.isLval])] at hgen
  simp only [gv, hs, Option.bind_eq_bind, Option.bind_some] at hgen
  rw [if_neg (by simp [SValue.isLval]), if_neg (by omega)] at hgen
  have hss8 : (if btype_size st.bt = 8 then 8 else 4) = btype_size st.bt := by
    obtain hss | hss := hss <;> rw [hss] <;> rfl
  rw [hss8, if_neg (by omega)] at hgen
  simp only [Option.bind_eq_some_iff, Option.pure_def, Option.some.injEq] at hgen
  obtain ⟨s₂, hshifts, rfl⟩ := hgen
  refine @Yields.after _ { s with vstack := ⟨st, .reg r, 0⟩ :: rest } _ _ _ _ _ _ (Runs.refl rfl h)
    (evolve_refl h rest) (cast_shifts_yields (h := h) hss.symm hint (by omega) rfl ?_ hshifts)
  intro _ _ hsize
  omega

/-- An entry that may be used as it is, or as soon as its delayed cast is done. -/
theorem force_charshort_cast_yields {s s' : Gen} {top : SValue} {rest : List SValue} {h : Hart}
    (hforce : force_charshort_cast s = some s') (hs : s.vstack = top :: rest)
    (htop : Canonical top h) : Yields s h s' rest top.type := by
  unfold force_charshort_cast at hforce
  simp only [hs] at hforce
  split at hforce
  · rename_i hcast
    cases hforce
    exact ⟨h, top, rest, Runs.refl rfl h, hs, evolve_refl h rest, rfl, hcast, htop⟩
  · rename_i hcast
    obtain ⟨hbt, r, hloc⟩ := htop.delayed hcast
    simp only [Option.bind_eq_bind, Option.bind_eq_some_iff, Option.pure_def,
      Option.some.injEq] at hforce
    obtain ⟨s₁, hgen, rfl⟩ := hforce
    obtain ⟨h₁, v, rest₁, hrun, hs₁, hrest, htype, hsettled, hv⟩ :=
      @gen_cast_core_force _ _ _ _ r rest h hgen (by rw [hloc])
        (by split <;> simp) (by
          split
          · exact Or.inl rfl
          · rename_i hbool
            obtain hb | hb | hb := hbt
            · exact Or.inl hb
            · exact Or.inr hb
            · exact absurd hb hbool)
    rw [retype_eq hs₁]
    refine ⟨h₁, _, rest₁, hrun, rfl, hrest, rfl, hsettled, hv.retype hsettled htop.integer ?_⟩
    intro _
    rw [htype]
    split
    · rfl
    · obtain hb | hb | hb := hbt <;> rw [Scalar.isNarrow, hb] <;> rfl

theorem castOk_of_size {dt : Scalar} {s : Gen} {h : Hart} {v : SValue} {rest : List SValue}
    (hs : s.vstack = v :: rest) (hsize : btype_size v.type.bt ≠ 8) : CastOk dt s h := by
  intro _ top rest' hs' hsize'
  rw [hs, List.cons.injEq] at hs'
  obtain ⟨rfl, -⟩ := hs'
  exact absurd hsize' hsize

/-- `force_charshort_cast` leaves a settled value for which a cast is as safe as it was. -/
theorem force_charshort_cast_settles {s s' : Gen} {top : SValue} {rest : List SValue} {h : Hart}
    {dt : Scalar} (hforce : force_charshort_cast s = some s') (hs : s.vstack = top :: rest)
    (htop : Canonical top h) (hok : CastOk dt s h) :
    ∃ h' v rest', Runs s h s' h' ∧ s'.vstack = v :: rest' ∧ Evolve h h' rest rest' ∧
      v.type = top.type ∧ v.mustcast = 0 ∧ Canonical v h' ∧ CastOk dt s' h' := by
  by_cases hcast : top.mustcast = 0
  · simp only [force_charshort_cast, hs, hcast, if_pos, Option.some.injEq] at hforce
    subst hforce
    exact ⟨h, top, rest, Runs.refl rfl h, hs, evolve_refl h rest, rfl, hcast, htop, hok⟩
  · obtain ⟨h', v, rest', hrun, hs', hrest, htype, hsettled, hv⟩ :=
      force_charshort_cast_yields hforce hs htop
    refine ⟨h', v, rest', hrun, hs', hrest, htype, hsettled, hv, castOk_of_size hs' ?_⟩
    rw [htype]
    obtain ⟨hb | hb | hb, -⟩ := htop.delayed hcast <;> rw [hb] <;> decide

/-- `gen_cast` to an integer type other than `_Bool`. -/
theorem gen_cast_int_yields {dt : Scalar} {s s' : Gen} {top : SValue} {rest : List SValue}
    {h : Hart} (hgen : gen_cast_int dt s = some s') (hs : s.vstack = top :: rest)
    (htop : Canonical top h) (hdt : dt.isInteger = true) (hok : CastOk dt s h) :
    Yields s h s' rest dt := by
  simp only [gen_cast_int, Option.bind_eq_bind, Option.bind_eq_some_iff] at hgen
  obtain ⟨s₁, hforce, hgen⟩ := hgen
  obtain ⟨h₁, v, rest₁, hrun, hs₁, hrest, -, hsettled, hv, hok₁⟩ :=
    force_charshort_cast_settles hforce hs htop hok
  exact Yields.after hrun hrest (gen_cast_core_yields hgen hs₁ hv hsettled hdt hok₁)

theorem castOk_of_ne {dt : Scalar} (hne : dt ≠ .uint) (s : Gen) (h : Hart) : CastOk dt s h :=
  fun heq => absurd heq hne

/-- The type both operands of an operation are cast to. -/
def operationType (op : Op) (t1 t2 : Scalar) : Scalar :=
  if op.isShift then shift_type t1 else combine_types t1 t2

/-- An operation is done at `unsigned int` only on operands that are narrow. -/
theorem operationType_uint {op : Op} {t1 t2 : Scalar}
    (hptr : ¬((t1.bt = VT_PTR ∨ t2.bt = VT_PTR) ∧ op.isCmp = false))
    (h : operationType op t1 t2 = .uint) :
    t1.bt ≠ VT_PTR ∧ t1.bt ≠ VT_LLONG ∧
      (op.isShift = false → t2.bt ≠ VT_PTR ∧ t2.bt ≠ VT_LLONG) := by
  unfold operationType at h
  split at h
  · rename_i hshift
    have hcmp : op.isCmp = false := by
      obtain rfl | rfl | rfl := isShift_cases hshift <;> rfl
    refine ⟨fun h1 => hptr ⟨Or.inl h1, hcmp⟩, fun h1 => ?_, fun hno => ?_⟩
    · rw [shift_type, if_pos h1] at h
      rw [h] at h1
      cases h1
    · rw [hshift] at hno
      cases hno
  · unfold combine_types at h
    split at h
    · cases h
    · rename_i hptr'
      split at h
      · cases h
      · rename_i hll
        push Not at hptr' hll
        exact ⟨hptr'.1, hll.1, fun _ => ⟨hptr'.2, hll.2⟩⟩

theorem operationType_isOperation (op : Op) {t1 t2 : Scalar} :
    Scalar.isOperation (operationType op t1 t2) := by
  unfold operationType shift_type combine_types
  split_ifs with _ hll <;> first
    | exact Or.inl rfl
    | exact Or.inr rfl
    | exact Or.inr hll

theorem size_of_narrow {t : Scalar} (ht : t.isInteger = true) (hptr : t.bt ≠ VT_PTR)
    (hll : t.bt ≠ VT_LLONG) : btype_size t.bt ≠ 8 := by
  obtain h | h | h | h | h | h := isInteger_cases ht <;> rw [h]
  · decide
  · decide
  · decide
  · exact absurd h hll
  · exact absurd h hptr
  · decide

/-- `gen_op` keeps the invariant, whatever its operands are. -/
theorem gen_op_yields {op : Op} (hland : op ≠ TOK_LAND) (hlor : op ≠ TOK_LOR) {s s' : Gen}
    {v2 v1 : SValue} {rest : List SValue} {h : Hart} (hgen : gen_op op s = some s')
    (hs : s.vstack = v2 :: v1 :: rest) (hv2 : Canonical v2 h) (hv1 : Canonical v1 h) :
    Yields s h s' rest (resultOf op (operationType op v1.type v2.type)) := by
  unfold gen_op at hgen
  simp only [hs] at hgen
  split at hgen
  · cases hgen
  rename_i hptr
  rw [show (if op.isShift then shift_type v1.type else combine_types v1.type v2.type) =
    operationType op v1.type v2.type from rfl] at hgen
  have huint := operationType_uint hptr
  have htop : Scalar.isOperation (operationType op v1.type v2.type) := operationType_isOperation op
  generalize operationType op v1.type v2.type = t at *
  simp only [Option.bind_eq_bind, Option.bind_eq_some_iff] at hgen
  obtain ⟨s₁, hswap₁, s₂, hcast₂, s₃, hswap₃, s₄, hcast₄, hgen⟩ := hgen
  obtain ⟨h₁, a₁, b₁, rest₁, hrun₁, hs₁, ha₁, hb₁, hrest₁⟩ := vswap_evolve hswap₁ hs hv2
  have hok₂ : CastOk t s₁ h₁ := by
    by_cases ht : t = .uint
    · obtain ⟨hp, hl, -⟩ := huint ht
      refine castOk_of_size hs₁ ?_
      rw [hb₁.type]
      exact size_of_narrow hv1.integer hp hl
    · exact castOk_of_ne ht _ _
  obtain ⟨h₂, w₁, tail₂, hrun₂, hs₂, htail₂, hw₁type, hw₁cast, hw₁⟩ :=
    gen_cast_int_yields hcast₂ hs₁ (hb₁.canonical hv1) (isOperation_integer htop) hok₂
  obtain ⟨a₂, rest₂, ha₂, hrest₂, rfl⟩ := List.forall₂_cons_left_iff.mp htail₂
  obtain ⟨h₃, w₃, a₃, rest₃, hrun₃, hs₃, hw₃, ha₃, hrest₃⟩ := vswap_evolve hswap₃ hs₂ hw₁
  have hv2₃ : Canonical a₃ h₃ := ha₃.canonical (ha₂.canonical (ha₁.canonical hv2))
  have htype₃ : a₃.type = v2.type := ha₃.type.trans (ha₂.type.trans ha₁.type)
  obtain ⟨t2, ht2, hcast₄, ht2op⟩ : ∃ t2, (t2 = t ∧ op.isShift = false ∨ t2 = .int) ∧
      gen_cast_int t2 s₃ = some s₄ ∧ t2.isInteger = true := by
    cases hshift : op.isShift with
    | true => exact ⟨.int, Or.inr rfl, by rw [hshift] at hcast₄; exact hcast₄, rfl⟩
    | false =>
      exact ⟨t, Or.inl ⟨rfl, rfl⟩, by rw [hshift] at hcast₄; exact hcast₄,
        isOperation_integer htop⟩
  have hok₄ : CastOk t2 s₃ h₃ := by
    obtain ⟨rfl, hshift⟩ | rfl := ht2
    · by_cases ht : t2 = .uint
      · obtain ⟨-, -, h2⟩ := huint ht
        refine castOk_of_size hs₃ ?_
        rw [htype₃]
        exact size_of_narrow hv2.integer (h2 hshift).1 (h2 hshift).2
      · exact castOk_of_ne ht _ _
    · exact castOk_of_ne (by decide) _ _
  obtain ⟨h₄, u, tail₄, hrun₄, hs₄, htail₄, hutype, hucast, hu⟩ :=
    gen_cast_int_yields hcast₄ hs₃ hv2₃ ht2op hok₄
  obtain ⟨w₄, rest₄, hw₄, hrest₄, rfl⟩ := List.forall₂_cons_left_iff.mp htail₄
  have hoperands : Operands s₄ h₄ u w₄ rest₄ :=
    ⟨hs₄, hu, hw₄.canonical (hw₃.canonical hw₁), hucast, hw₄.settled (hw₃.settled hw₁cast)⟩
  have htypes : OpTypes t u w₄ := by
    refine ⟨htop, hw₄.type.trans (hw₃.type.trans hw₁type), ?_⟩
    obtain ⟨rfl, -⟩ | rfl := ht2
    · exact Or.inl hutype
    · exact Or.inr hutype
  exact Yields.after (((hrun₁.trans hrun₂).trans hrun₃).trans hrun₄)
    (((hrest₁.trans hrest₂).trans hrest₃).trans hrest₄)
    (gen_op_typed_yields hland hlor hgen hoperands htypes)

/-- The value left by `gen_test_zero`, under the type `_Bool`. -/
theorem gen_test_nonzero_yields {dt : Scalar} (hdt : dt.isInteger = true) {s s' : Gen}
    {top : SValue} {rest : List SValue} {h : Hart} (htest : gen_test_nonzero s = some s')
    (hs : s.vstack = top :: rest) (htop : Canonical top h) :
    Yields s h (retype dt s') rest dt := by
  unfold gen_test_nonzero at htest
  split at htest
  · rename_i hcmp
    cases htest
    obtain ⟨t, loc, m⟩ := top
    simp only [topIsCmp, hs] at hcmp
    split at hcmp
    · rename_i t' op a b m' rest' heq
      simp only [List.cons.injEq, SValue.mk.injEq] at heq
      obtain ⟨⟨rfl, rfl, rfl⟩, rfl⟩ := heq
      have hm : m = 0 := by
        by_contra hne
        obtain ⟨-, r, hr⟩ := htop.delayed hne
        cases hr
      subst hm
      rw [retype_eq hs]
      exact ⟨h, _, rest, Runs.refl rfl h, rfl, evolve_refl h rest, rfl, rfl,
        canonical_cmp h hdt (htop.compare op a b rfl)⟩
    · cases hcmp
  · rename_i hcmp
    simp only [Option.bind_eq_bind, Option.bind_eq_some_iff] at htest
    obtain ⟨s₁, hpush, hgen⟩ := htest
    have hs₁ : s₁ = { s with vstack := ⟨.int, .VT_CONST 0#64, 0⟩ :: top :: rest } := by
      simp only [vpushi, vpush, Option.bind_eq_bind, Option.bind_eq_some_iff, Option.pure_def,
        Option.some.injEq] at hpush
      obtain ⟨s₀, hcheck, rfl⟩ := hpush
      unfold vcheck_cmp at hcheck
      split at hcheck
      · rename_i hvs
        rw [topIsCmp, hvs] at hcmp
        exact absurd rfl hcmp
      · cases hcheck
        rw [hs]
    subst hs₁
    have hzero : Canonical ⟨.int, .VT_CONST 0#64, 0⟩ h :=
      canonical_const h rfl fun _ => wordConst_of_lt (n := 0) (by decide)
    obtain ⟨h', v, rest', hrun, hs', hrest, htype, hsettled, hv⟩ :=
      gen_op_yields (by decide) (by decide) hgen rfl hzero htop
    rw [retype_eq hs']
    refine ⟨h', _, rest', hrun, rfl, hrest, rfl, hsettled, hv.retype hsettled hdt fun _ => ?_⟩
    rw [htype]
    rfl

/-- `gen_cast` to an integer type. -/
theorem gen_cast_yields {dt : Scalar} {s s' : Gen} {top : SValue} {rest : List SValue} {h : Hart}
    (hgen : gen_cast dt s = some s') (hs : s.vstack = top :: rest) (htop : Canonical top h)
    (hdt : dt.isInteger = true) (hok : CastOk dt s h) : Yields s h s' rest dt := by
  simp only [gen_cast, Option.bind_eq_bind, Option.bind_eq_some_iff] at hgen
  obtain ⟨s₁, hforce, hgen⟩ := hgen
  obtain ⟨h₁, v, rest₁, hrun, hs₁, hrest, -, hsettled, hv, hok₁⟩ :=
    force_charshort_cast_settles hforce hs htop hok
  refine Yields.after hrun hrest ?_
  simp only [hs₁] at hgen
  split at hgen
  · rename_i hbool
    obtain ⟨tv, lv, mv⟩ := v
    obtain rfl : mv = 0 := hsettled
    split at hgen
    · cases hgen
      exact ⟨h₁, _, rest₁, Runs.refl rfl h₁, rfl, evolve_refl h₁ rest₁, rfl, rfl,
        canonical_const h₁ hdt fun hn => wordConst_cast hdt hn _⟩
    · cases hgen
      exact ⟨h₁, _, rest₁, Runs.refl rfl h₁, rfl, evolve_refl h₁ rest₁, rfl, rfl,
        canonical_const h₁ hdt fun _ => wordConst_of_lt (n := 1) (by decide)⟩
    · simp only [Option.bind_eq_some_iff, Option.pure_def, Option.some.injEq] at hgen
      obtain ⟨s₂, htest, rfl⟩ := hgen
      exact gen_test_nonzero_yields hdt htest hs₁ hv
  · exact gen_cast_core_yields hgen hs₁ hv hsettled hdt hok₁

end tcc.riscv64
