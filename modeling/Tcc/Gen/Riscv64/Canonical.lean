import Tcc.Gen.Riscv64.Fold
import Tcc.Gen.Riscv64.Stack

open machine machine.rv64

namespace tcc.riscv64

open BType tcc.Op

/-- The invariant of an entry of the value stack: a register that holds a value
    narrower than a register holds its sign extension, unless the entry is still
    to be cast. -/
structure Canonical (v : SValue) (h : Hart) : Prop where
  integer : v.type.isInteger = true
  delayed : v.mustcast ≠ 0 →
    (v.type.bt = VT_BYTE ∨ v.type.bt = VT_SHORT ∨ v.type.bt = VT_BOOL) ∧ ∃ r, v.loc = .reg r
  word : ∀ r, v.loc = .reg r → v.mustcast = 0 → v.type.isNarrow = true → IsWord (h.get (ireg r))
  const : ∀ c, v.loc = .VT_CONST c → v.type.isNarrow = true → WordConst c
  symbol : ∀ s, v.loc = .VT_SYM s → v.type.isNarrow = false
  local_ : ∀ c, v.loc = .VT_LOCAL c → v.type.isNarrow = false
  compare : ∀ op a b, v.loc = .VT_CMP op a b → op.isCmp = true

/-- All entries of a stack are canonical. -/
def CanonicalStack (vs : List SValue) (h : Hart) : Prop := ∀ v ∈ vs, Canonical v h

/-- What code generation may do to an entry that it does not consume: the entry
    keeps its type, stays canonical, and gets no new delayed cast. -/
structure Evolves (h h' : Hart) (v v' : SValue) : Prop where
  type : v'.type = v.type
  canonical : Canonical v h → Canonical v' h'
  settled : v.mustcast = 0 → v'.mustcast = 0

/-- The entries of a stack evolve one by one. -/
abbrev Evolve (h h' : Hart) : List SValue → List SValue → Prop := List.Forall₂ (Evolves h h')

/-- The code emitted between two states of the generator leads from one state of
    the hart to the other. -/
def Runs (s : Gen) (h : Hart) (s' : Gen) (h' : Hart) : Prop :=
  ∃ ws, s'.code = s.code ++ ws ∧ run ws h = some h'

theorem Runs.refl {s s' : Gen} (hcode : s'.code = s.code) (h : Hart) : Runs s h s' h :=
  ⟨[], by rw [hcode, List.append_nil], rfl⟩

theorem Runs.trans {s₁ s₂ s₃ : Gen} {h₁ h₂ h₃ : Hart} (h₁₂ : Runs s₁ h₁ s₂ h₂)
    (h₂₃ : Runs s₂ h₂ s₃ h₃) : Runs s₁ h₁ s₃ h₃ := by
  obtain ⟨ws, hcode, hrun⟩ := h₁₂
  obtain ⟨vs, hcode', hrun'⟩ := h₂₃
  refine ⟨ws ++ vs, by rw [hcode', hcode, List.append_assoc], ?_⟩
  rw [run_append, hrun, Option.bind_some, hrun']

theorem Evolves.trans {h₁ h₂ h₃ : Hart} {v₁ v₂ v₃ : SValue} (h₁₂ : Evolves h₁ h₂ v₁ v₂)
    (h₂₃ : Evolves h₂ h₃ v₂ v₃) : Evolves h₁ h₃ v₁ v₃ where
  type := h₂₃.type.trans h₁₂.type
  canonical hv := h₂₃.canonical (h₁₂.canonical hv)
  settled hv := h₂₃.settled (h₁₂.settled hv)

theorem Evolve.trans {h₁ h₂ h₃ : Hart} {vs₁ vs₂ vs₃ : List SValue} (h₁₂ : Evolve h₁ h₂ vs₁ vs₂)
    (h₂₃ : Evolve h₂ h₃ vs₂ vs₃) : Evolve h₁ h₃ vs₁ vs₃ := by
  induction h₁₂ generalizing vs₃ with
  | nil =>
    cases h₂₃
    exact .nil
  | cons hhead _ ih =>
    cases h₂₃ with
    | cons hhead' htail' => exact .cons (hhead.trans hhead') (ih htail')

theorem Evolve.canonical {h h' : Hart} {vs vs' : List SValue} (hevolve : Evolve h h' vs vs')
    (hvs : CanonicalStack vs h) : CanonicalStack vs' h' := by
  induction hevolve with
  | nil => intro v hv; cases hv
  | cons hhead _ ih =>
    intro v hv
    obtain rfl | hv := List.mem_cons.mp hv
    · exact hhead.canonical (hvs _ List.mem_cons_self)
    · exact ih (fun w hw => hvs w (List.mem_cons_of_mem _ hw)) v hv

/-- An entry whose register keeps its content stays canonical. -/
theorem evolves_of_kept {h h' : Hart} {v : SValue}
    (hkeep : ∀ r, v.uses r = true → h'.get (ireg r) = h.get (ireg r)) : Evolves h h' v v where
  type := rfl
  canonical hv :=
    { integer := hv.integer
      delayed := hv.delayed
      word := fun r hloc hcast hnarrow => by
        rw [hkeep r (by simp [SValue.uses, hloc])]
        exact hv.word r hloc hcast hnarrow
      const := hv.const
      symbol := hv.symbol
      local_ := hv.local_
      compare := hv.compare }
  settled hv := hv

theorem evolve_of_kept {h h' : Hart} {vs : List SValue}
    (hkeep : ∀ v ∈ vs, ∀ r, v.uses r = true → h'.get (ireg r) = h.get (ireg r)) :
    Evolve h h' vs vs :=
  List.forall₂_same.mpr fun v hv => evolves_of_kept (hkeep v hv)

/-- A saved entry is canonical: what it held is in memory now. -/
theorem evolves_saved (h h' : Hart) (v : SValue) (l : BitVec 64) :
    Evolves h h' v (v.saved l) := by
  unfold SValue.saved
  split
  · rename_i hlval
    refine ⟨rfl, fun hv => ?_, fun hv => hv⟩
    refine ⟨hv.integer, fun hcast => ?_, nofun, nofun, nofun, nofun, nofun⟩
    obtain ⟨-, r, hr⟩ := hv.delayed hcast
    rw [SValue.isLval, hr] at hlval
    cases hlval
  · refine ⟨rfl, fun hv => ?_, fun _ => rfl⟩
    exact ⟨hv.integer, fun hcast => absurd rfl hcast, nofun, nofun, nofun, nofun, nofun⟩

theorem saved_uses (v : SValue) (l : BitVec 64) (r : Reg) : (v.saved l).uses r = false := by
  unfold SValue.saved
  split <;> rfl

theorem ireg_ne_zero (r : Reg) : ireg r ≠ 0#5 := by
  revert r
  decide

theorem ireg_ne_five (r : Reg) : ireg r ≠ 5#5 := by
  revert r
  decide

theorem ireg_inj {q r : Reg} : ireg q = ireg r ↔ q = r := by
  revert q r
  decide

theorem store_local_run {rr : BitVec 5} {bt : BType} {c : BitVec 32} {ws : List Word}
    (hstore : store_local rr bt c = some ws) (h : Hart) :
    ∃ h', run ws h = some h' ∧ ∀ q, q ≠ 5#5 → h'.get q = h.get q := by
  simp only [store_local, Option.bind_eq_bind, Option.bind_eq_some_iff, Option.pure_def,
    Option.some.injEq] at hstore
  obtain ⟨⟨pre, ptr, fc⟩, hpre, w, hw, rfl⟩ := hstore
  obtain ⟨h₁, hrun₁, hkeep₁⟩ := load_symofs_writesOnly hpre h
  obtain ⟨h₂, hrun₂, hkeep₂⟩ := run_ES (by split_ifs <;> decide) hw h₁
  refine ⟨h₂, ?_, fun q hq => (hkeep₂ q).trans (hkeep₁ q hq)⟩
  rw [run_append, hrun₁, Option.bind_some, hrun₂]

theorem save_reg_upstack_spec {s s' : Gen} {r : Reg} {n : Nat}
    (hsave : save_reg_upstack s r n = some s') (h : Hart) :
    ∃ h', Runs s h s' h' ∧ (∀ q, h'.get (ireg q) = h.get (ireg q)) ∧
      Evolve h h' s.vstack s'.vstack ∧ ∀ v ∈ s'.vstack.drop n, v.uses r = false := by
  unfold save_reg_upstack at hsave
  split at hsave
  · rename_i hnone
    cases hsave
    refine ⟨h, Runs.refl rfl h, fun _ => rfl, evolve_of_kept fun _ _ _ _ => rfl, fun v hv => ?_⟩
    have hfree := List.find?_eq_none.mp hnone v (List.mem_reverse.mpr hv)
    exact Bool.not_eq_true _ ▸ hfree
  · rename_i p hp
    simp only [Option.bind_eq_bind, Option.bind_eq_some_iff, Option.pure_def,
      Option.some.injEq] at hsave
    obtain ⟨ws, hws, rfl⟩ := hsave
    obtain ⟨h', hrun, hkeep⟩ := store_local_run hws h
    have hregs (q : Reg) : h'.get (ireg q) = h.get (ireg q) := hkeep _ (ireg_ne_five q)
    have hsame : Evolve h h' (s.vstack.take n) (s.vstack.take n) :=
      evolve_of_kept fun _ _ q _ => hregs q
    refine ⟨h', ⟨ws, by simp [emit], hrun⟩, hregs, ?_, ?_⟩
    · simp only [get_temp_local_var_vstack]
      nth_rewrite 1 [← List.take_append_drop n s.vstack]
      refine List.rel_append hsame (List.forall₂_map_right_iff.mpr (List.forall₂_same.mpr ?_))
      intro v _
      split
      · exact evolves_saved h h' v _
      · exact evolves_of_kept fun q _ => hregs q
    · intro v hv
      simp only [get_temp_local_var_vstack, List.drop_append, List.drop_take_self,
        List.nil_append] at hv
      obtain ⟨w, -, rfl⟩ := List.mem_map.mp (List.mem_of_mem_drop hv)
      split
      · exact saved_uses w _ r
      · rename_i hfree
        exact Bool.not_eq_true _ ▸ hfree

theorem get_reg_spec {s s' : Gen} {r : Reg} (hget : get_reg s = some (r, s')) (h : Hart) :
    ∃ h', Runs s h s' h' ∧ (∀ q, h'.get (ireg q) = h.get (ireg q)) ∧
      Evolve h h' s.vstack s'.vstack ∧ ∀ v ∈ s'.vstack, v.uses r = false := by
  unfold get_reg at hget
  split at hget
  · rename_i q hq
    cases hget
    have hfree := List.find?_some hq
    simp only [List.all_eq_true, Bool.not_eq_true'] at hfree
    exact ⟨h, Runs.refl rfl h, fun _ => rfl, evolve_of_kept fun _ _ _ _ => rfl, hfree⟩
  · split at hget
    · rename_i q _
      obtain ⟨t, hsave, heq⟩ := Option.map_eq_some_iff.mp hget
      cases heq
      exact save_reg_upstack_spec hsave h
    · cases hget

theorem boolWord_isWord (b : Bool) : IsWord (boolWord b) := by
  apply isWord_of_toNat_lt
  cases b <;> decide

/-- Loading a canonical value into a register leaves a sign-extended word there
    when the type is narrow. -/
theorem load_run {r : Reg} {v : SValue} {ws : List Word} (hload : load (ireg r) v = some ws)
    {h : Hart} (hv : Canonical v h) (hcast : v.mustcast = 0) :
    ∃ h', run ws h = some h' ∧ (∀ q, q ≠ ireg r → h'.get q = h.get q) ∧
      (v.type.isNarrow = true → IsWord (h'.get (ireg r))) := by
  have hwrites (hws : WritesOnly (ireg r) ws) (hwide : v.type.isNarrow = false) :
      ∃ h', run ws h = some h' ∧ (∀ q, q ≠ ireg r → h'.get q = h.get q) ∧
        (v.type.isNarrow = true → IsWord (h'.get (ireg r))) := by
    obtain ⟨h', hrun, hkeep⟩ := hws h
    exact ⟨h', hrun, hkeep, fun hnarrow => by rw [hwide] at hnarrow; cases hnarrow⟩
  unfold load at hload
  split at hload
  · exact load_lval_run (ireg_ne_zero r) hv.integer hload h
  · rename_i c hloc
    by_cases hnarrow : v.type.isNarrow = true
    · have hbt : v.type.bt ≠ VT_LLONG := by
        intro hbt
        rw [Scalar.isNarrow, hbt] at hnarrow
        cases hnarrow
      obtain ⟨h', hrun, hkeep, hword⟩ :=
        load_const_run (ireg_ne_zero r) hbt (hv.const c hloc hnarrow) hload h
      exact ⟨h', hrun, hkeep, fun _ => hword⟩
    · exact hwrites (load_const_writesOnly hload) (Bool.not_eq_true _ ▸ hnarrow)
  · rename_i s hloc
    simp only [Option.bind_eq_bind, Option.bind_eq_some_iff, Option.pure_def,
      Option.some.injEq] at hload
    obtain ⟨⟨pre, rb, fc⟩, hpre, rest, hrest, rfl⟩ := hload
    exact hwrites ((load_symofs_writesOnly hpre).append (load_const_writesOnly hrest))
      (hv.symbol s hloc)
  · rename_i c hloc
    simp only [Option.bind_eq_bind, Option.bind_eq_some_iff, Option.pure_def,
      Option.some.injEq] at hload
    obtain ⟨⟨pre, br, fc⟩, hpre, w, hw, rfl⟩ := hload
    obtain rfl := EI_eq_some hw
    exact hwrites ((load_symofs_writesOnly hpre).append (addi_writesOnly _ _ _))
      (hv.local_ c hloc)
  · rename_i q hloc
    simp only [Option.bind_eq_bind, Option.bind_eq_some_iff, Option.pure_def,
      Option.some.injEq] at hload
    obtain ⟨w, hw, rfl⟩ := hload
    obtain rfl := EI_eq_some hw
    have hset := Sets.set_next h (ireg_ne_zero r) (h.get (ireg q))
    have hadd : aluI 0 (h.get (ireg q)) ((0#32).setWidth 12) = some (h.get (ireg q)) :=
      congrArg some (BitVec.add_zero _)
    refine ⟨_, by rw [run_cons, exec_EIu _ _ _ _ hadd]; rfl, hset.frame, fun hnarrow => ?_⟩
    rw [hset.value]
    exact hv.word q hloc hcast hnarrow
  · rename_i op a b hloc
    cases hload
    obtain ⟨h', hrun, hset⟩ :=
      load_cmp_run h (ireg_ne_zero r) op (hv.compare op a b hloc) a b
    refine ⟨h', hrun, hset.frame, fun _ => ?_⟩
    rw [hset.value]
    exact boolWord_isWord _
  · rename_i t jumped hloc
    simp only [Option.bind_eq_bind, Option.bind_eq_some_iff, Option.pure_def,
      Option.some.injEq] at hload
    obtain ⟨w, hw, rfl⟩ := hload
    obtain rfl := EI_eq_some hw
    have hadd : aluI 0 (h.get 0) ((if t != jumped then 1#32 else 0#32).setWidth 12) =
        some (boolWord (t != jumped)) := by
      cases t != jumped <;> rfl
    have hset := Sets.set_next h (ireg_ne_zero r) (boolWord (t != jumped))
    refine ⟨_, by rw [run_cons, exec_EIu _ _ _ _ hadd]; rfl, hset.frame, fun _ => ?_⟩
    rw [hset.value]
    exact boolWord_isWord _

/-- The entry `gv` makes of the top of the stack. -/
theorem canonical_reg {t : Scalar} {r : Reg} {h : Hart} (ht : t.isInteger = true)
    (hword : t.isNarrow = true → IsWord (h.get (ireg r))) : Canonical ⟨t, .reg r, 0⟩ h where
  integer := ht
  delayed hcast := absurd rfl hcast
  word q hloc _ hnarrow := by
    cases hloc
    exact hword hnarrow
  const := nofun
  symbol := nofun
  local_ := nofun
  compare := nofun

theorem canonical_cmp {t : Scalar} {op : Op} {a b : BitVec 5} (h : Hart) (ht : t.isInteger = true)
    (hop : op.isCmp = true) : Canonical ⟨t, .VT_CMP op a b, 0⟩ h where
  integer := ht
  delayed hcast := absurd rfl hcast
  word := nofun
  const := nofun
  symbol := nofun
  local_ := nofun
  compare _ _ _ hloc := by
    cases hloc
    exact hop

theorem canonical_const {t : Scalar} {c : BitVec 64} (h : Hart) (ht : t.isInteger = true)
    (hc : t.isNarrow = true → WordConst c) : Canonical ⟨t, .VT_CONST c, 0⟩ h where
  integer := ht
  delayed hcast := absurd rfl hcast
  word := nofun
  const _ hloc hnarrow := by
    cases hloc
    exact hc hnarrow
  symbol := nofun
  local_ := nofun
  compare := nofun

/-- A value already in a register may be used as it is. -/
def GvOk (v : SValue) (h : Hart) : Prop :=
  ∀ r, v.loc = .reg r → v.type.isNarrow = true → IsWord (h.get (ireg r))

theorem gvOk_of_settled {v : SValue} {h : Hart} (hv : Canonical v h) (hcast : v.mustcast = 0) :
    GvOk v h :=
  fun r hloc hnarrow => hv.word r hloc hcast hnarrow

theorem gv_spec {s s' : Gen} {r : Reg} {top : SValue} {rest : List SValue} {h : Hart}
    (hgv : gv s = some (r, s')) (hs : s.vstack = top :: rest) (htop : Canonical top h)
    (hok : GvOk top h) :
    ∃ h' rest', Runs s h s' h' ∧ s'.vstack = ⟨top.type, .reg r, 0⟩ :: rest' ∧
      Canonical ⟨top.type, .reg r, 0⟩ h' ∧ Evolve h h' rest rest' := by
  unfold gv at hgv
  rw [hs] at hgv
  simp only at hgv
  split at hgv
  · rename_i q hloc
    simp only [Option.some.injEq, Prod.mk.injEq] at hgv
    obtain ⟨rfl, rfl⟩ := hgv
    exact ⟨h, rest, Runs.refl rfl h, by rw [hloc], canonical_reg htop.integer (hok q hloc),
      evolve_of_kept fun _ _ _ _ => rfl⟩
  · rename_i hnotreg
    have hcast : top.mustcast = 0 := by
      by_contra hne
      obtain ⟨-, q, hq⟩ := htop.delayed hne
      exact hnotreg q hq
    simp only [Option.bind_eq_bind, Option.bind_eq_some_iff] at hgv
    obtain ⟨⟨q, s₁⟩, hget, hgv⟩ := hgv
    obtain ⟨h₁, hrun₁, -, hevolve₁, hfree⟩ := get_reg_spec hget h
    rw [hs] at hevolve₁
    obtain ⟨top₁, rest₁, htop₁, hrest₁, hs₁⟩ := List.forall₂_cons_left_iff.mp hevolve₁
    simp only [hs₁, Option.bind_eq_some_iff, Option.pure_def, Option.some.injEq,
      Prod.mk.injEq] at hgv
    obtain ⟨ws, hload, rfl, rfl⟩ := hgv
    obtain ⟨h₂, hrun₂, hkeep, hword⟩ :=
      load_run hload (htop₁.canonical htop) (htop₁.settled hcast)
    have hkept : Evolve h₁ h₂ rest₁ rest₁ := by
      apply evolve_of_kept
      intro v hv p hp
      apply hkeep
      rw [ne_eq, ireg_inj]
      rintro rfl
      rw [hfree v (by rw [hs₁]; exact List.mem_cons_of_mem _ hv)] at hp
      cases hp
    refine ⟨h₂, rest₁, hrun₁.trans ⟨ws, rfl, hrun₂⟩, ?_, ?_, Evolve.trans hrest₁ hkept⟩
    · simp only [htop₁.type]
    · refine canonical_reg htop.integer fun hnarrow => hword ?_
      rw [htop₁.type]
      exact hnarrow

/-- On settled entries `gv` is one more evolution of the stack. -/
theorem gv_evolve {s s' : Gen} {r : Reg} {top : SValue} {rest : List SValue} {h : Hart}
    (hgv : gv s = some (r, s')) (hs : s.vstack = top :: rest) (htop : Canonical top h)
    (hcast : top.mustcast = 0) :
    ∃ h' rest', Runs s h s' h' ∧ s'.vstack = ⟨top.type, .reg r, 0⟩ :: rest' ∧
      Evolves h h' top ⟨top.type, .reg r, 0⟩ ∧ Evolve h h' rest rest' := by
  obtain ⟨h', rest', hrun, hs', hcanon, hrest⟩ := gv_spec hgv hs htop (gvOk_of_settled htop hcast)
  exact ⟨h', rest', hrun, hs', ⟨rfl, fun _ => hcanon, fun _ => rfl⟩, hrest⟩

theorem vcheck_cmp_evolve {s s' : Gen} {top : SValue} {rest : List SValue} {h : Hart}
    (hcheck : vcheck_cmp s = some s') (hs : s.vstack = top :: rest) (htop : Canonical top h) :
    ∃ h' top' rest', Runs s h s' h' ∧ s'.vstack = top' :: rest' ∧ Evolves h h' top top' ∧
      Evolve h h' rest rest' := by
  unfold vcheck_cmp at hcheck
  split at hcheck
  · rename_i op a b m tail hcmp
    obtain ⟨⟨r, t⟩, hgv, rfl⟩ := Option.map_eq_some_iff.mp hcheck
    have hcast : top.mustcast = 0 := by
      by_contra hne
      obtain ⟨-, q, hq⟩ := htop.delayed hne
      rw [hs] at hcmp
      cases hcmp
      cases hq
    obtain ⟨h', rest', hrun, hs', htop', hrest⟩ := gv_evolve hgv hs htop hcast
    exact ⟨h', _, rest', hrun, hs', htop', hrest⟩
  · cases hcheck
    exact ⟨h, top, rest, Runs.refl rfl h, hs, evolves_of_kept fun _ _ => rfl,
      evolve_of_kept fun _ _ _ _ => rfl⟩

theorem vswap_evolve {s s' : Gen} {a b : SValue} {rest : List SValue} {h : Hart}
    (hswap : vswap s = some s') (hs : s.vstack = a :: b :: rest) (ha : Canonical a h) :
    ∃ h' a' b' rest', Runs s h s' h' ∧ s'.vstack = b' :: a' :: rest' ∧ Evolves h h' a a' ∧
      Evolves h h' b b' ∧ Evolve h h' rest rest' := by
  simp only [vswap, Option.bind_eq_bind, Option.bind_eq_some_iff] at hswap
  obtain ⟨s₁, hcheck, hswap⟩ := hswap
  obtain ⟨h', a', tail, hrun, hs₁, ha', htail⟩ := vcheck_cmp_evolve hcheck hs ha
  obtain ⟨b', rest', hb', hrest, rfl⟩ := List.forall₂_cons_left_iff.mp htail
  simp only [hs₁, Option.some.injEq] at hswap
  subst hswap
  obtain ⟨ws, hcode, hws⟩ := hrun
  exact ⟨h', a', b', rest', ⟨ws, hcode, hws⟩, rfl, ha', hb', hrest⟩

/-- Two settled operands at the top of a canonical stack. -/
structure Operands (s : Gen) (h : Hart) (v2 v1 : SValue) (rest : List SValue) : Prop where
  stack : s.vstack = v2 :: v1 :: rest
  second : Canonical v2 h
  first : Canonical v1 h
  settled2 : v2.mustcast = 0
  settled1 : v1.mustcast = 0

theorem operands_vswap {s s' : Gen} {a b : SValue} {rest : List SValue} {h : Hart}
    (hswap : vswap s = some s') (hs : Operands s h a b rest) :
    ∃ h' a' b' rest', Runs s h s' h' ∧ Operands s' h' b' a' rest' ∧ a'.type = a.type ∧
      b'.type = b.type ∧ Evolve h h' rest rest' := by
  obtain ⟨h', a', b', rest', hrun, hs', ha, hb, hrest⟩ := vswap_evolve hswap hs.stack hs.second
  exact ⟨h', a', b', rest', hrun,
    ⟨hs', hb.canonical hs.first, ha.canonical hs.second, hb.settled hs.settled1,
      ha.settled hs.settled2⟩, ha.type, hb.type, hrest⟩

theorem operands_gv {s s' : Gen} {r : Reg} {a b : SValue} {rest : List SValue} {h : Hart}
    (hgv : gv s = some (r, s')) (hs : Operands s h a b rest) :
    ∃ h' b' rest', Runs s h s' h' ∧ Operands s' h' ⟨a.type, .reg r, 0⟩ b' rest' ∧
      b'.type = b.type ∧ Evolve h h' rest rest' := by
  obtain ⟨h', tail, hrun, hs', ha, htail⟩ := gv_evolve hgv hs.stack hs.second hs.settled2
  obtain ⟨b', rest', hb, hrest, rfl⟩ := List.forall₂_cons_left_iff.mp htail
  exact ⟨h', b', rest', hrun,
    ⟨hs', ha.canonical hs.second, hb.canonical hs.first, rfl, hb.settled hs.settled1⟩,
    hb.type, hrest⟩

theorem gv2_spec {s s' : Gen} {v2 v1 : SValue} {rest : List SValue} {h : Hart}
    (hgv2 : gv2 s = some s') (hs : Operands s h v2 v1 rest) :
    ∃ h' v2' v1' rest', Runs s h s' h' ∧ Operands s' h' v2' v1' rest' ∧ v2'.type = v2.type ∧
      v1'.type = v1.type ∧ Evolve h h' rest rest' := by
  unfold gv2 at hgv2
  split at hgv2
  · simp only [Option.bind_eq_bind, Option.bind_eq_some_iff] at hgv2
    obtain ⟨⟨r, s₁⟩, hgv, s₂, hswap, ⟨q, s₃⟩, hgv', s₄, hswap', hend⟩ := hgv2
    obtain ⟨h₁, b₁, rest₁, hrun₁, hs₁, hb₁, hrest₁⟩ := operands_gv hgv hs
    obtain ⟨h₂, a₂, b₂, rest₂, hrun₂, hs₂, ha₂, hb₂, hrest₂⟩ := operands_vswap hswap hs₁
    obtain ⟨h₃, a₃, rest₃, hrun₃, hs₃, ha₃, hrest₃⟩ := operands_gv hgv' hs₂
    obtain ⟨h₄, b₄, a₄, rest₄, hrun₄, hs₄, hb₄, ha₄, hrest₄⟩ := operands_vswap hswap' hs₃
    have hrun := ((hrun₁.trans hrun₂).trans hrun₃).trans hrun₄
    have hrest := ((hrest₁.trans hrest₂).trans hrest₃).trans hrest₄
    have ha : a₄.type = v2.type := ha₄.trans (ha₃.trans ha₂)
    have hb : b₄.type = v1.type := hb₄.trans (hb₂.trans hb₁)
    split at hend
    · cases hend
      exact ⟨h₄, a₄, b₄, rest₄, hrun, hs₄, ha, hb, hrest⟩
    · simp only [Option.bind_eq_some_iff, Option.pure_def, Option.some.injEq] at hend
      obtain ⟨⟨q', s₅⟩, hgv₅, rfl⟩ := hend
      obtain ⟨h₅, b₅, rest₅, hrun₅, hs₅, hb₅, hrest₅⟩ := operands_gv hgv₅ hs₄
      exact ⟨h₅, _, b₅, rest₅, hrun.trans hrun₅, hs₅, ha, hb₅.trans hb, hrest.trans hrest₅⟩
  · simp only [Option.bind_eq_bind, Option.bind_eq_some_iff] at hgv2
    obtain ⟨s₁, hswap, ⟨r, s₂⟩, hgv, s₃, hswap', ⟨q, s₄⟩, hgv', hend⟩ := hgv2
    obtain ⟨h₁, a₁, b₁, rest₁, hrun₁, hs₁, ha₁, hb₁, hrest₁⟩ := operands_vswap hswap hs
    obtain ⟨h₂, a₂, rest₂, hrun₂, hs₂, ha₂, hrest₂⟩ := operands_gv hgv hs₁
    obtain ⟨h₃, b₃, a₃, rest₃, hrun₃, hs₃, hb₃, ha₃, hrest₃⟩ := operands_vswap hswap' hs₂
    obtain ⟨h₄, b₄, rest₄, hrun₄, hs₄, hb₄, hrest₄⟩ := operands_gv hgv' hs₃
    have hrun := ((hrun₁.trans hrun₂).trans hrun₃).trans hrun₄
    have hrest := ((hrest₁.trans hrest₂).trans hrest₃).trans hrest₄
    have ha : a₃.type = v2.type := ha₃.trans (ha₂.trans ha₁)
    have hb : b₄.type = v1.type := hb₄.trans (hb₃.trans hb₁)
    split at hend
    · cases hend
      exact ⟨h₄, _, b₄, rest₄, hrun, hs₄, ha, hb, hrest⟩
    · simp only [Option.bind_eq_some_iff] at hend
      obtain ⟨s₅, hswap₅, ⟨q', s₆⟩, hgv₆, hswap₇⟩ := hend
      obtain ⟨h₅, a₅, b₅, rest₅, hrun₅, hs₅, ha₅, hb₅, hrest₅⟩ := operands_vswap hswap₅ hs₄
      obtain ⟨h₆, a₆, rest₆, hrun₆, hs₆, ha₆, hrest₆⟩ := operands_gv hgv₆ hs₅
      obtain ⟨h₇, b₇, a₇, rest₇, hrun₇, hs₇, hb₇, ha₇, hrest₇⟩ := operands_vswap hswap₇ hs₆
      exact ⟨h₇, a₇, b₇, rest₇, ((hrun.trans hrun₅).trans hrun₆).trans hrun₇, hs₇,
        ha₇.trans (ha₆.trans (ha₅.trans ha)), hb₇.trans (hb₅.trans hb),
        ((hrest.trans hrest₅).trans hrest₆).trans hrest₇⟩

/-- What `gen_opil` leaves of two operands: a pending comparison, or a register
    that holds a word when both operands are narrow. -/
structure Computed (op : Op) (ll : Bool) (t1 t2 : Scalar) (v : SValue) (h : Hart) : Prop where
  type : v.type = t1
  settled : v.mustcast = 0
  compare : op.isCmp = true → ∃ op' a b, v.loc = .VT_CMP op' a b ∧ op'.isCmp = true
  compute : op.isCmp = false → ∃ d, v.loc = .reg d ∧
    (ll = false → t1.isNarrow = true → t2.isNarrow = true → IsWord (h.get (ireg d)))

theorem opil_value_isWord {op : Op} (hop : op.isCmp = false) {x y : BitVec 64} (hx : IsWord x)
    (hy : IsWord y) : IsWord (opil_value op false x y) := by
  obtain ⟨u, rfl⟩ := hx.exists_eq
  obtain ⟨v, rfl⟩ := hy.exists_eq
  rw [opil_value_word hop]
  exact isWord_signExtend (by decide) _

/-- Writing a register that no entry uses leaves the entries alone. -/
theorem evolve_of_frame {h h' : Hart} {d : Reg} {vs : List SValue}
    (hframe : ∀ q, q ≠ ireg d → h'.get q = h.get q) (hfree : ∀ v ∈ vs, v.uses d = false) :
    Evolve h h' vs vs := by
  apply evolve_of_kept
  intro v hv r hr
  apply hframe
  rw [ne_eq, ireg_inj]
  rintro rfl
  rw [hfree v hv] at hr
  cases hr

theorem gen_opil_regs_spec {op : Op} (hland : op ≠ TOK_LAND) (hlor : op ≠ TOK_LOR) {ll : Bool}
    {s s' : Gen} {v2 v1 : SValue} {rest : List SValue} {h : Hart}
    (hgen : gen_opil_regs op ll s = some s') (hs : Operands s h v2 v1 rest) :
    ∃ h' v rest', Runs s h s' h' ∧ s'.vstack = v :: rest' ∧ Evolve h h' rest rest' ∧
      Computed op ll v1.type v2.type v h' := by
  simp only [gen_opil_regs, Option.bind_eq_bind, Option.bind_eq_some_iff] at hgen
  obtain ⟨s₁, hgv2, hgen⟩ := hgen
  obtain ⟨h₁, v2', v1', rest₁, hrun₁, hs₁, ht2, ht1, hrest₁⟩ := gv2_spec hgv2 hs
  split at hgen
  · rename_i tb b mb ta a ma tail hvs
    rw [hs₁.stack] at hvs
    obtain ⟨rfl, rfl, rfl⟩ : v2' = ⟨tb, .reg b, mb⟩ ∧ v1' = ⟨ta, .reg a, ma⟩ ∧ rest₁ = tail := by
      simpa using hvs
    simp only [Option.bind_eq_some_iff] at hgen
    obtain ⟨⟨d, s₂⟩, hget, ⟨ws, res⟩, hop, hgen⟩ := hgen
    obtain ⟨h₂, hrun₂, hregs₂, hrest₂, hfree⟩ := get_reg_spec hget h₁
    have hrunAll : Runs s h s₂ h₂ := hrun₁.trans hrun₂
    have hrest : Evolve h h₂ rest s₂.vstack := hrest₁.trans hrest₂
    by_cases hcmp : op.isCmp = true
    · rw [gen_opil_reg_cmp op ll _ _ _ hcmp, Option.some.injEq, Prod.mk.injEq] at hop
      obtain ⟨rfl, rfl⟩ := hop
      simp only [Option.pure_def, Option.some.injEq] at hgen
      subst hgen
      refine ⟨h₂, _, s₂.vstack, ?_, rfl, hrest, ?_⟩
      · exact hrunAll.trans ⟨[], rfl, rfl⟩
      · exact ⟨ht1, rfl, fun _ => ⟨op, _, _, rfl, hcmp⟩,
          fun hno => by rw [hcmp] at hno; cases hno⟩
    · rw [Bool.not_eq_true] at hcmp
      obtain ⟨w, hw, hexec⟩ :=
        gen_opil_reg_alu op ll (ireg d) (ireg a) (ireg b) h₂ hcmp hland hlor
      rw [hw, Option.some.injEq, Prod.mk.injEq] at hop
      obtain ⟨rfl, rfl⟩ := hop
      simp only [Option.pure_def, Option.some.injEq] at hgen
      subst hgen
      have hset := Sets.set_next h₂ (ireg_ne_zero d)
        (opil_value op ll (h₂.get (ireg a)) (h₂.get (ireg b)))
      have hrunw : run [w] h₂ =
          some (h₂.set (ireg d) (opil_value op ll (h₂.get (ireg a)) (h₂.get (ireg b)))).next := by
        rw [run_cons, hexec, Option.bind_some, run_nil]
      refine ⟨_, _, s₂.vstack, hrunAll.trans ⟨[w], rfl, hrunw⟩, rfl, ?_, ?_⟩
      · exact hrest.trans (evolve_of_frame hset.frame hfree)
      · refine ⟨ht1, rfl, fun hyes => (by rw [hcmp] at hyes; cases hyes), fun _ => ⟨d, rfl, ?_⟩⟩
        intro hll hn1 hn2
        rw [hset.value, hregs₂, hregs₂, hll]
        apply opil_value_isWord hcmp
        · refine hs₁.first.word a rfl hs₁.settled1 ?_
          rw [ht1]
          exact hn1
        · refine hs₁.second.word b rfl hs₁.settled2 ?_
          rw [ht2]
          exact hn2
  · cases hgen

theorem vswap_of_reg {s s' : Gen} {t : Scalar} {r : Reg} {b : SValue} {rest : List SValue}
    {m : Nat} (hswap : vswap s = some s') (hs : s.vstack = ⟨t, .reg r, m⟩ :: b :: rest) :
    s' = { s with vstack := b :: ⟨t, .reg r, m⟩ :: rest } := by
  simp only [vswap, vcheck_cmp, hs, Option.bind_eq_bind, Option.bind_some, Option.some.injEq] at hswap
  exact hswap.symm

theorem vswap_of_const {s s' : Gen} {t : Scalar} {c : BitVec 64} {b : SValue} {rest : List SValue}
    {m : Nat} (hswap : vswap s = some s') (hs : s.vstack = ⟨t, .VT_CONST c, m⟩ :: b :: rest) :
    s' = { s with vstack := b :: ⟨t, .VT_CONST c, m⟩ :: rest } := by
  simp only [vswap, vcheck_cmp, hs, Option.bind_eq_bind, Option.bind_some, Option.some.injEq] at hswap
  exact hswap.symm

/-- The first operand of an immediate form is in register `a`, and `d` is free
    for the result; a value that was in a register is still there. -/
theorem gen_opil_prep_spec {s s' : Gen} {v2 v1 : SValue} {rest : List SValue} {h : Hart}
    {c : BitVec 64} {a d : Reg} (hprep : gen_opil_prep s = some (a, d, s'))
    (hs : Operands s h v2 v1 rest) (hconst : v2.loc = .VT_CONST c) :
    ∃ h' v2' rest', Runs s h s' h' ∧ Operands s' h' v2' ⟨v1.type, .reg a, 0⟩ rest' ∧
      v2'.type = v2.type ∧ Evolve h h' rest rest' ∧ (∀ v ∈ rest', v.uses d = false) := by
  obtain ⟨t2, l2, m2⟩ := v2
  obtain rfl : l2 = .VT_CONST c := hconst
  simp only [gen_opil_prep, Option.bind_eq_bind, Option.bind_eq_some_iff] at hprep
  obtain ⟨s₁, hswap, ⟨q, s₂⟩, hgv, hend⟩ := hprep
  obtain rfl := vswap_of_const hswap hs.stack
  have hs₁ : Operands { s with vstack := v1 :: ⟨t2, .VT_CONST c, m2⟩ :: rest } h v1
      ⟨t2, .VT_CONST c, m2⟩ rest :=
    ⟨rfl, hs.first, hs.second, hs.settled1, hs.settled2⟩
  obtain ⟨h₂, b₂, rest₂, hrun₂, hs₂, hb₂, hrest₂⟩ := operands_gv hgv hs₁
  simp only [hs₂.stack, Option.bind_eq_some_iff, Option.pure_def, Option.some.injEq,
    Prod.mk.injEq] at hend
  obtain ⟨⟨d', s₃⟩, hget, s₄, hswap₄, rfl, rfl, rfl⟩ := hend
  obtain ⟨h₃, hrun₃, hregs₃, hevolve₃, hfree⟩ := get_reg_spec hget h₂
  obtain ⟨b₃, rest₃, hb₃, hrest₃, hs₃⟩ := List.forall₂_cons_left_iff.mp hevolve₃
  have hswapped := vswap_of_reg hswap₄ (by simp only [hs₃]; rfl)
  subst hswapped
  obtain ⟨ws₂, hcode₂, hws₂⟩ := hrun₂
  refine ⟨h₃, b₃, rest₃, Runs.trans ⟨ws₂, hcode₂, hws₂⟩ hrun₃, ⟨rfl, ?_, ?_, ?_, rfl⟩, ?_,
    hrest₂.trans hrest₃, ?_⟩
  · exact hb₃.canonical hs₂.first
  · exact (evolves_of_kept (fun r _ => hregs₃ r)).canonical hs₂.second
  · exact hb₃.settled hs₂.settled1
  · exact hb₃.type.trans hb₂
  · intro v hv
    exact hfree v (by rw [hs₃]; exact List.mem_cons_of_mem _ hv)

theorem signExtend_neg {fc : BitVec 32} (h : imm12 fc) : (-fc).signExtend 64 = -(fc.signExtend 64) := by
  have hfit := (imm12_iff fc).mp h
  have hx := toInt_signExtend fc
  apply BitVec.eq_of_toInt_eq
  rw [toInt_signExtend, BitVec.toInt_neg, BitVec.toInt_neg, hx, Int.bmod_eq_of_le, Int.bmod_eq_of_le] <;> omega

theorem signExtend_succ {fc : BitVec 32} (h : imm12 fc) : (fc + 1#32).signExtend 64 = fc.signExtend 64 + 1#64 := by
  have hfit := (imm12_iff fc).mp h
  have hx := toInt_signExtend fc
  apply BitVec.eq_of_toInt_eq
  rw [toInt_signExtend, BitVec.toInt_add, BitVec.toInt_add, hx, show (1#32).toInt = 1 from rfl,
    show (1#64).toInt = 1 from rfl, Int.bmod_eq_of_le, Int.bmod_eq_of_le] <;> omega

theorem signExtend_toNat_mod (fc : BitVec 32) : (fc.signExtend 64).toNat % 64 = fc.toNat % 64 := by
  have := fc.isLt
  rw [BitVec.toNat_signExtend, BitVec.toNat_setWidth]
  split <;> omega

/-- The shift count of an immediate form, and the same with the bit that marks
    an arithmetic shift. -/
theorem shamt_toNat (fc : BitVec 32) {k : Nat} (hk : k ≤ 6) :
    ((fc &&& BitVec.ofNat 32 (2 ^ k - 1)).setWidth 12).toNat = fc.toNat % 2 ^ k ∧
      ((1024#32 ||| fc &&& BitVec.ofNat 32 (2 ^ k - 1)).setWidth 12).toNat =
        1024 + fc.toNat % 2 ^ k := by
  have hpow : 2 ^ k ≤ 2 ^ 6 := Nat.pow_le_pow_right (by decide) hk
  have hmask : (BitVec.ofNat 32 (2 ^ k - 1)).toNat = 2 ^ k - 1 := by
    rw [BitVec.toNat_ofNat, Nat.mod_eq_of_lt]
    omega
  have hlt : fc.toNat % 2 ^ k < 2 ^ k := Nat.mod_lt _ (Nat.two_pow_pos k)
  have hand : (fc &&& BitVec.ofNat 32 (2 ^ k - 1)).toNat = fc.toNat % 2 ^ k := by
    rw [BitVec.toNat_and, hmask, Nat.and_two_pow_sub_one_eq_mod]
  constructor
  · rw [BitVec.toNat_setWidth, hand]
    omega
  · have hor := Nat.two_pow_add_eq_or_of_lt (i := 10) (b := fc.toNat % 2 ^ k) (by omega) 1
    rw [BitVec.toNat_setWidth, BitVec.toNat_or, hand, show (1024#32).toNat = 2 ^ 10 * 1 from rfl, ← hor]
    omega

theorem aluI_slli {x : BitVec 64} {n : BitVec 12} {k : Nat} (hn : n.toNat = k) (hk : k < 64) :
    aluI 1 x n = some (x <<< k) := by
  subst hn
  exact if_pos hk

theorem aluI_srli {x : BitVec 64} {n : BitVec 12} {k : Nat} (hn : n.toNat = k) (hk : k < 64) :
    aluI 5 x n = some (x >>> k) := by
  subst hn
  exact if_pos hk

theorem aluI_srai {x : BitVec 64} {n : BitVec 12} {k : Nat} (hn : n.toNat = 1024 + k)
    (hk : k < 64) : aluI 5 x n = some (x.sshiftRight k) := by
  refine (if_neg (by omega)).trans ((if_pos (by omega)).trans ?_)
  rw [hn, Nat.add_sub_cancel_left]

theorem aluIW_slliw {x : BitVec 32} {n : BitVec 12} {k : Nat} (hn : n.toNat = k) (hk : k < 32) :
    aluIW 1 x n = some (x <<< k) := by
  subst hn
  exact if_pos hk

theorem aluIW_srliw {x : BitVec 32} {n : BitVec 12} {k : Nat} (hn : n.toNat = k) (hk : k < 32) :
    aluIW 5 x n = some (x >>> k) := by
  subst hn
  exact if_pos hk

theorem aluIW_sraiw {x : BitVec 32} {n : BitVec 12} {k : Nat} (hn : n.toNat = 1024 + k)
    (hk : k < 32) : aluIW 5 x n = some (x.sshiftRight k) := by
  refine (if_neg (by omega)).trans ((if_pos (by omega)).trans ?_)
  rw [hn, Nat.add_sub_cancel_left]

/-- The instruction of an immediate form computes what the form for registers
    computes from the constant; a comparison leaves its truth in the register. -/
theorem gen_opil_imm_run {op : Op} {ll : Bool} {fc imm : BitVec 32} {w : BitVec 7} {f3 : BitVec 3}
    (himm : gen_opil_imm op ll fc = .cop w f3 imm) {d a : BitVec 5} (hd : d ≠ 0#5) {instr : Word}
    (hinstr : EI (0x13#7 ||| w) f3 d a imm = some instr) (hfc : imm12 fc) (h : Hart) :
    ∃ h', run [instr] h = some h' ∧
      Sets h d (opil_value op ll (h.get a) (fc.signExtend 64)) h' := by
  have hfit : imm12 imm := by
    rw [EI, Option.ite_none_right_eq_some] at hinstr
    exact hinstr.1
  obtain rfl := EI_eq_some hinstr
  have hop {v : BitVec 64} (hv : aluI f3 (h.get a) (imm.setWidth 12) = some v) :
      run [EIu 0x13#7 f3 d a imm] h = some (h.set d v).next := by
    rw [run_cons, exec_EIu _ _ _ _ hv, Option.bind_some, run_nil]
  have hopw {v : BitVec 32} (hv : aluIW f3 ((h.get a).setWidth 32) (imm.setWidth 12) = some v) :
      run [EIu 0x1b#7 f3 d a imm] h = some (h.set d (v.signExtend 64)).next := by
    rw [run_cons, exec_EIuW _ _ _ _ hv, Option.bind_some, run_nil]
  suffices hval : run [EIu (0x13#7 ||| w) f3 d a imm] h =
      some (h.set d (opil_value op ll (h.get a) (fc.signExtend 64))).next from
    ⟨_, hval, Sets.set_next h hd _⟩
  have h64 : _ = fc.toNat % 64 ∧ _ = 1024 + fc.toNat % 64 := shamt_toNat fc (k := 6) (by decide)
  have h32 : _ = fc.toNat % 32 ∧ _ = 1024 + fc.toNat % 32 := shamt_toNat fc (k := 5) (by decide)
  generalize h.get a = x at *
  cases op with
  | add =>
    cases himm
    cases ll with
    | true =>
      refine hop (congrArg some ?_)
      rw [imm12_signExtend64 hfit]
      rfl
    | false =>
      refine hopw (congrArg some ?_)
      rw [imm12_signExtend32 hfit, setWidth_signExtend]
      rfl
  | sub =>
    simp only [gen_opil_imm] at himm
    split at himm
    · cases himm
    · cases himm
      cases ll with
      | true =>
        refine hop (congrArg some ?_)
        rw [imm12_signExtend64 hfit, signExtend_neg hfc, ← BitVec.sub_eq_add_neg]
        rfl
      | false =>
        refine hopw (congrArg some ?_)
        rw [imm12_signExtend32 hfit, setWidth_signExtend, ← BitVec.sub_eq_add_neg]
        rfl
  | xor | or | and =>
    cases himm
    refine hop (congrArg some ?_)
    rw [imm12_signExtend64 hfit]
    cases ll <;> rfl
  | TOK_LT | TOK_ULT =>
    cases himm
    refine hop (congrArg some ?_)
    rw [imm12_signExtend64 hfit]
    rfl
  | TOK_LE =>
    simp only [gen_opil_imm] at himm
    split at himm
    · cases himm
    · cases himm
      refine hop (congrArg some ?_)
      rw [imm12_signExtend64 hfit, signExtend_succ hfc, slt_succ (by decide)]
      · rfl
      · rw [toInt_signExtend]
        have := (imm12_iff fc).mp hfc
        omega
  | TOK_ULE =>
    simp only [gen_opil_imm] at himm
    split at himm
    · cases himm
    · rename_i hbound
      cases himm
      refine hop (congrArg some ?_)
      rw [imm12_signExtend64 hfit, signExtend_succ hfc, ult_succ (by decide)]
      · rfl
      · intro hmax
        exact hbound (Or.inr (signExtend_inj.mp (hmax.trans (by decide))))
  | TOK_SHL =>
    cases himm
    cases ll with
    | true =>
      refine hop ((aluI_slli h64.1 (Nat.mod_lt _ (by decide))).trans (congrArg some ?_))
      rw [← signExtend_toNat_mod]
      rfl
    | false =>
      refine hopw ((aluIW_slliw h32.1 (Nat.mod_lt _ (by decide))).trans (congrArg some ?_))
      rw [setWidth_signExtend]
      rfl
  | TOK_SHR =>
    cases himm
    cases ll with
    | true =>
      refine hop ((aluI_srli h64.1 (Nat.mod_lt _ (by decide))).trans (congrArg some ?_))
      rw [← signExtend_toNat_mod]
      rfl
    | false =>
      refine hopw ((aluIW_srliw h32.1 (Nat.mod_lt _ (by decide))).trans (congrArg some ?_))
      rw [setWidth_signExtend]
      rfl
  | TOK_SAR =>
    cases himm
    cases ll with
    | true =>
      refine hop ((aluI_srai h64.2 (Nat.mod_lt _ (by decide))).trans (congrArg some ?_))
      rw [← signExtend_toNat_mod]
      rfl
    | false =>
      refine hopw ((aluIW_sraiw h32.2 (Nat.mod_lt _ (by decide))).trans (congrArg some ?_))
      rw [setWidth_signExtend]
      rfl
  | _ => cases himm

theorem immediate_eq_some {s : Gen} {fc : BitVec 32} (h : immediate s = some fc) :
    imm12 fc ∧ ∃ t m rest, s.vstack = ⟨t, .VT_CONST (fc.signExtend 64), m⟩ :: rest := by
  unfold immediate at h
  split at h
  · rename_i t c m rest hvs
    rw [Option.ite_none_right_eq_some] at h
    obtain ⟨⟨hc, hlarge⟩, hfc⟩ := h
    obtain rfl := Option.some.inj hfc
    refine ⟨?_, t, m, rest, by rw [hvs, hc]⟩
    simpa [large, imm12] using hlarge
  · cases h

theorem Computed.transfer {op : Op} {ll : Bool} {t1 t2 t1' t2' : Scalar} {v : SValue} {h : Hart}
    (hv : Computed op ll t1' t2' v h) (h1 : t1' = t1) (h2 : t2' = t2) :
    Computed op ll t1 t2 v h := by
  subst h1 h2
  exact hv

theorem gen_opil_cop_spec {op : Op} (hland : op ≠ TOK_LAND) (hlor : op ≠ TOK_LOR) {ll : Bool}
    {s s' : Gen} {v2 v1 : SValue} {rest : List SValue} {h : Hart}
    (hgen : gen_opil_cop op ll s = some s') (hs : Operands s h v2 v1 rest) :
    ∃ h' v rest', Runs s h s' h' ∧ s'.vstack = v :: rest' ∧ Evolve h h' rest rest' ∧
      Computed op ll v1.type v2.type v h' := by
  unfold gen_opil_cop at hgen
  split at hgen
  · exact gen_opil_regs_spec hland hlor hgen hs
  · rename_i fc himm
    obtain ⟨hfc, t, m, tail, hvs⟩ := immediate_eq_some himm
    have hconst : v2.loc = .VT_CONST (fc.signExtend 64) := by
      rw [hs.stack] at hvs
      rw [(List.cons.inj hvs).1]
    simp only [Option.bind_eq_bind, Option.bind_eq_some_iff] at hgen
    obtain ⟨⟨a, d, s₁⟩, hprep, hgen⟩ := hgen
    obtain ⟨h₁, v2', rest₁, hrun₁, hs₁, ht2, hrest₁, hfree⟩ := gen_opil_prep_spec hprep hs hconst
    split at hgen
    · rename_i w f3 imm hform
      simp only [Option.bind_eq_some_iff, hs₁.stack, Option.pure_def, Option.some.injEq] at hgen
      obtain ⟨instr, hinstr, rfl⟩ := hgen
      obtain ⟨h₂, hrun₂, hset⟩ := gen_opil_imm_run hform (ireg_ne_zero d) hinstr hfc h₁
      refine ⟨h₂, _, rest₁, hrun₁.trans ⟨[instr], rfl, hrun₂⟩, rfl,
        hrest₁.trans (evolve_of_frame hset.frame hfree), ?_⟩
      refine ⟨rfl, rfl, fun hcmp => ?_, fun hcmp => ?_⟩
      · exact ⟨TOK_NE, ireg d, 0, by rw [hcmp, if_pos rfl], rfl⟩
      · refine ⟨d, by rw [hcmp, if_neg (by decide)], fun hll hn1 hn2 => ?_⟩
        rw [hset.value, hll]
        exact opil_value_isWord hcmp (hs₁.first.word a rfl rfl hn1)
          (isWord_signExtend (by decide) fc)
    · obtain ⟨h₂, v, rest₂, hrun₂, hs₂, hrest₂, hv⟩ := gen_opil_regs_spec hland hlor hgen hs₁
      exact ⟨h₂, v, rest₂, hrun₁.trans hrun₂, hs₂, hrest₁.trans hrest₂, hv.transfer rfl ht2⟩

theorem gen_opil_imm_inverted {op op' : Op} {ll : Bool} {fc : BitVec 32}
    (h : gen_opil_imm op ll fc = .inverted op') :
    op.isCmp = true ∧ op'.isCmp = true ∧ op' ≠ TOK_LAND ∧ op' ≠ TOK_LOR := by
  cases op with
  | TOK_UGE | TOK_UGT | TOK_GE | TOK_GT =>
    cases h
    decide
  | sub | TOK_LE | TOK_ULE =>
    simp only [gen_opil_imm] at h
    split at h <;> cases h
  | _ => cases h

theorem gen_opil_imm_compare {op : Op} {ll : Bool} {fc : BitVec 32}
    (h : gen_opil_imm op ll fc = .compare) : op.isCmp = true := by
  cases op with
  | TOK_EQ | TOK_NE => rfl
  | sub | TOK_LE | TOK_ULE =>
    simp only [gen_opil_imm] at h
    split at h <;> cases h
  | _ => cases h

theorem gen_opil_spec {op : Op} (hland : op ≠ TOK_LAND) (hlor : op ≠ TOK_LOR) {ll : Bool}
    {s s' : Gen} {v2 v1 : SValue} {rest : List SValue} {h : Hart}
    (hgen : gen_opil op ll s = some s') (hs : Operands s h v2 v1 rest) :
    ∃ h' v rest', Runs s h s' h' ∧ s'.vstack = v :: rest' ∧ Evolve h h' rest rest' ∧
      Computed op ll v1.type v2.type v h' := by
  unfold gen_opil at hgen
  split at hgen
  · exact gen_opil_regs_spec hland hlor hgen hs
  · rename_i fc himm
    obtain ⟨hfc, t, m, tail, hvs⟩ := immediate_eq_some himm
    have hconst : v2.loc = .VT_CONST (fc.signExtend 64) := by
      rw [hs.stack] at hvs
      rw [(List.cons.inj hvs).1]
    split at hgen
    · rename_i op' hform
      have hop := gen_opil_imm_inverted hform
      simp only [Option.bind_eq_bind, Option.bind_eq_some_iff, Option.pure_def,
        Option.some.injEq] at hgen
      obtain ⟨⟨a, d, s₁⟩, hprep, s₂, hcop, rfl⟩ := hgen
      obtain ⟨h₁, v2', rest₁, hrun₁, hs₁, ht2, hrest₁, -⟩ := gen_opil_prep_spec hprep hs hconst
      obtain ⟨h₂, v, rest₂, hrun₂, hs₂, hrest₂, hv⟩ :=
        gen_opil_cop_spec hop.2.2.1 hop.2.2.2 hcop hs₁
      obtain ⟨tv, lv, mv⟩ := v
      obtain ⟨op'', x, y, hloc, hop''⟩ := hv.compare hop.2.1
      obtain rfl : lv = .VT_CMP op'' x y := hloc
      have hinv : (invertTop s₂).vstack = ⟨tv, .VT_CMP op''.xor1 x y, mv⟩ :: rest₂ := by
        simp only [invertTop, setTop, hs₂]
      have hcode : (invertTop s₂).code = s₂.code := by
        simp only [invertTop, setTop, hs₂]
      refine ⟨h₂, _, rest₂, (hrun₁.trans hrun₂).trans (Runs.refl hcode h₂), hinv,
        hrest₁.trans hrest₂, ?_⟩
      exact ⟨hv.type, hv.settled, fun _ => ⟨_, _, _, rfl, Op.isCmp_xor1 hop''⟩,
        fun hno => by rw [hop.1] at hno; cases hno⟩
    · rename_i hform
      have hop := gen_opil_imm_compare hform
      simp only [Option.bind_eq_bind, Option.bind_eq_some_iff] at hgen
      obtain ⟨⟨a, d, s₁⟩, hprep, s₂, hsub, hgen⟩ := hgen
      obtain ⟨h₁, v2', rest₁, hrun₁, hs₁, ht2, hrest₁, -⟩ := gen_opil_prep_spec hprep hs hconst
      obtain ⟨h₂, v, rest₂, hrun₂, hs₂, hrest₂, htype⟩ : ∃ h₂ v rest₂, Runs s₁ h₁ s₂ h₂ ∧
          s₂.vstack = v :: rest₂ ∧ Evolve h₁ h₂ rest₁ rest₂ ∧ v.type = v1.type := by
        split at hsub
        · cases hsub
          refine ⟨h₁, ⟨v1.type, .reg a, 0⟩, rest₁, Runs.refl rfl h₁, ?_,
            evolve_of_kept fun _ _ _ _ => rfl, rfl⟩
          simp only [vdrop, hs₁.stack, List.tail_cons]
        · obtain ⟨h₂, v, rest₂, hrun₂, hs₂, hrest₂, hv⟩ :=
            gen_opil_cop_spec (by decide) (by decide) hsub hs₁
          exact ⟨h₂, v, rest₂, hrun₂, hs₂, hrest₂, hv.type⟩
      split at hgen
      · rename_i tv q mv tail' hvs₂
        rw [hs₂] at hvs₂
        obtain ⟨rfl, rfl⟩ : v = ⟨tv, .reg q, mv⟩ ∧ rest₂ = tail' := by simpa using hvs₂
        simp only [Option.pure_def, Option.some.injEq] at hgen
        subst hgen
        refine ⟨h₂, _, rest₂, (hrun₁.trans hrun₂).trans (Runs.refl rfl h₂), rfl,
          hrest₁.trans hrest₂, ?_⟩
        exact ⟨htype, rfl, fun _ => ⟨op, _, _, rfl, hop⟩, fun hno => by rw [hop] at hno; cases hno⟩
      · cases hgen
    · exact gen_opil_cop_spec hland hlor hgen hs

end tcc.riscv64
