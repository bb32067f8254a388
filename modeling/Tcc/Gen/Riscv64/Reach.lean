import Tcc.Gen.Riscv64.Branch
import Tcc.Gen.Riscv64.CastExtension

open machine machine.rv64

namespace tcc.riscv64

open BType tcc.Op

/-- An entry the parser puts on the stack by itself: a constant of its type, an
    address, an lvalue, or a register under a type as wide as the register. -/
structure Fresh (v : SValue) : Prop where
  integer : v.type.isInteger = true
  settled : v.mustcast = 0
  const : ∀ c, v.loc = .VT_CONST c → v.type.isNarrow = true → WordConst c
  register : ∀ r, v.loc = .reg r → v.type.isNarrow = false
  symbol : ∀ s, v.loc = .VT_SYM s → v.type.isNarrow = false
  local_ : ∀ c, v.loc = .VT_LOCAL c → v.type.isNarrow = false
  compare : ∀ op a b, v.loc ≠ .VT_CMP op a b

/-- What the parser does with the value stack. -/
inductive Action where
  | edit (vs : List SValue)
  | vcheck_cmp
  | save_reg_upstack (r : Reg) (n : Nat)
  | gv
  | gv_dup
  | gen_op (op : Op)
  | gen_cast (dt : Scalar)
  | force_charshort_cast
  | vstore (dt : Scalar)
  | result (t : Scalar) (r : Reg)
  | other

/-- The actions that generate code. The logical operators are control flow. -/
def perform (a : Action) (s : Gen) : Option Gen :=
  match a with
  | .vcheck_cmp => riscv64.vcheck_cmp s
  | .save_reg_upstack r n => riscv64.save_reg_upstack s r n
  | .gv => (riscv64.gv s).map (·.2)
  | .gv_dup => riscv64.gv_dup s
  | .gen_op op => if op = TOK_LAND ∨ op = TOK_LOR then none else riscv64.gen_op op s
  | .gen_cast dt => if dt.isInteger then riscv64.gen_cast dt s else none
  | .force_charshort_cast => riscv64.force_charshort_cast s
  | .vstore dt => if dt.isInteger then vstore_value dt s else none
  | _ => none

/-- One action, together with the execution of the code it generates. Values that
    other code computes (calls, conversions of floating values) come in a free
    register, sign-extended as the calling convention has it; other code leaves
    the registers of the value stack alone. -/
inductive Step : Action → Gen → Hart → Gen → Hart → Prop where
  | edit {vs : List SValue} {s : Gen} {h : Hart} (hvs : ∀ v ∈ vs, v ∈ s.vstack ∨ Fresh v) :
      Step (.edit vs) s h { s with vstack := vs } h
  | code {a : Action} {s s' : Gen} {h h' : Hart} (hperform : perform a s = some s')
      (hrun : Runs s h s' h') : Step a s h s' h'
  | result {t : Scalar} {r : Reg} {s : Gen} {h : Hart} (ht : t.isInteger = true)
      (hword : t.isNarrow = true → IsWord (h.get (ireg r))) :
      Step (.result t r) s h { s with vstack := ⟨t, .reg r, 0⟩ :: s.vstack } h
  | other {s s' : Gen} {h h' : Hart} (hstack : s'.vstack = s.vstack)
      (hkeep : ∀ v ∈ s.vstack, ∀ r, v.uses r = true → h'.get (ireg r) = h.get (ireg r)) :
      Step .other s h s' h'

/-- The states a run reaches whose steps all meet the condition `ok`. Where two
    paths of the program join, both leave the same value stack. -/
inductive Reachable (ok : Action → Gen → Hart → Prop) : Gen → Hart → Prop where
  | start {s : Gen} {h : Hart} (hs : s.vstack = []) : Reachable ok s h
  | step {a : Action} {s s' : Gen} {h h' : Hart} (hreach : Reachable ok s h) (hok : ok a s h)
      (hstep : Step a s h s' h') : Reachable ok s' h'
  | join {s₁ s₂ : Gen} {h₁ h₂ : Hart} (h₁reach : Reachable ok s₁ h₁)
      (h₂reach : Reachable ok s₂ h₂) (hstack : s₁.vstack = s₂.vstack) : Reachable ok s₂ h₁

/-- The condition on a step: a value whose cast is delayed is brought into a
    register (where `gv` forgets the cast) only when the register holds its word
    already, and an 8-byte value is cast to `unsigned int` in a register only
    when its bit 31 is clear. -/
def StepOk (a : Action) (s : Gen) (h : Hart) : Prop :=
  match a with
  | .gv | .gv_dup => ∀ top rest, s.vstack = top :: rest → top.mustcast ≠ 0 → GvOk top h
  | .gen_cast dt | .vstore dt => CastOk dt s h
  | _ => True

theorem Fresh.canonical {v : SValue} (hv : Fresh v) (h : Hart) : Canonical v h where
  integer := hv.integer
  delayed hcast := absurd hv.settled hcast
  word r hloc _ hnarrow := by
    rw [hv.register r hloc] at hnarrow
    cases hnarrow
  const := hv.const
  symbol := hv.symbol
  local_ := hv.local_
  compare op a b hloc := absurd hloc (hv.compare op a b)

theorem Runs.unique {s s' : Gen} {h h₁ h₂ : Hart} (hrun₁ : Runs s h s' h₁)
    (hrun₂ : Runs s h s' h₂) : h₁ = h₂ := by
  obtain ⟨ws, hcode, hws⟩ := hrun₁
  obtain ⟨vs, hcode', hvs⟩ := hrun₂
  obtain rfl : ws = vs := List.append_cancel_left (hcode.symm.trans hcode')
  exact Option.some.inj (hws.symm.trans hvs)

theorem canonicalStack_nil (h : Hart) : CanonicalStack [] h :=
  fun _ hv => absurd hv List.not_mem_nil

theorem canonicalStack_cons {v : SValue} {vs : List SValue} {h : Hart} (hv : Canonical v h)
    (hvs : CanonicalStack vs h) : CanonicalStack (v :: vs) h := by
  intro w hw
  obtain rfl | hw := List.mem_cons.mp hw
  · exact hv
  · exact hvs w hw

theorem CanonicalStack.head {v : SValue} {vs : List SValue} {h : Hart}
    (hvs : CanonicalStack (v :: vs) h) : Canonical v h := hvs v List.mem_cons_self

theorem CanonicalStack.tail {v : SValue} {vs : List SValue} {h : Hart}
    (hvs : CanonicalStack (v :: vs) h) : CanonicalStack vs h :=
  fun w hw => hvs w (List.mem_cons_of_mem v hw)

theorem Yields.canonicalStack {s s' : Gen} {h h' : Hart} {rest : List SValue} {t : Scalar}
    (hyields : Yields s h s' rest t) (hrun : Runs s h s' h') (hrest : CanonicalStack rest h) :
    CanonicalStack s'.vstack h' := by
  obtain ⟨h₁, v, rest', hrun₁, hs', hevolve, -, -, hv⟩ := hyields
  obtain rfl := hrun₁.unique hrun
  rw [hs']
  exact canonicalStack_cons hv (hevolve.canonical hrest)

/-- Without its cast a delayed value may be anything, but it is in a register. -/
theorem gv_register {s s' : Gen} {r : Reg} {top : SValue} {rest : List SValue} {h : Hart}
    (hgv : gv s = some (r, s')) (hs : s.vstack = top :: rest) (htop : Canonical top h) :
    ∃ h' rest', Runs s h s' h' ∧ s'.vstack = ⟨top.type, .reg r, 0⟩ :: rest' ∧
      Evolve h h' rest rest' := by
  by_cases hcast : top.mustcast = 0
  · obtain ⟨h', rest', hrun, hs', -, hrest⟩ := gv_evolve hgv hs htop hcast
    exact ⟨h', rest', hrun, hs', hrest⟩
  · obtain ⟨-, q, hloc⟩ := htop.delayed hcast
    simp only [gv, hs, hloc, Option.some.injEq, Prod.mk.injEq] at hgv
    obtain ⟨rfl, rfl⟩ := hgv
    exact ⟨h, rest, Runs.refl rfl h, rfl, evolve_refl h rest⟩

theorem gv_ok {s : Gen} {top : SValue} {rest : List SValue} {h : Hart} (htop : Canonical top h)
    (hs : s.vstack = top :: rest) (hok : StepOk .gv s h) : GvOk top h := by
  by_cases hcast : top.mustcast = 0
  · exact gvOk_of_settled htop hcast
  · exact hok top rest hs hcast

theorem gv_dup_canonical {s s' : Gen} {h h' : Hart} (hdup : gv_dup s = some s')
    (hrun : Runs s h s' h') (hvs : CanonicalStack s.vstack h) (hok : StepOk .gv s h) :
    CanonicalStack s'.vstack h' := by
  simp only [gv_dup, Option.bind_eq_bind, Option.bind_eq_some_iff] at hdup
  obtain ⟨⟨r, s₁⟩, hgv, ⟨q, s₂⟩, hget, hdup⟩ := hdup
  cases hs : s.vstack with
  | nil =>
    rw [gv, hs] at hgv
    cases hgv
  | cons top rest =>
    rw [hs] at hvs
    obtain ⟨h₁, rest₁, hrun₁, hs₁, htop₁, hrest₁⟩ :=
      gv_spec hgv hs hvs.head (gv_ok hvs.head hs hok)
    obtain ⟨h₂, hrun₂, -, hevolve₂, hfree⟩ := get_reg_spec hget h₁
    rw [hs₁] at hevolve₂
    obtain ⟨top₂, rest₂, htop₂, hrest₂, hs₂⟩ := List.forall₂_cons_left_iff.mp hevolve₂
    simp only [hs₂, Option.bind_eq_some_iff, Option.pure_def, Option.some.injEq] at hdup
    obtain ⟨ws, hload, rfl⟩ := hdup
    have hv₂ : Canonical top₂ h₂ := htop₂.canonical htop₁
    obtain ⟨h₃, hrun₃, hkeep, hword⟩ := load_run hload hv₂ (htop₂.settled rfl)
    have hrun' : Runs s₂ h₂ { emit s₂ ws with vstack := ⟨top₂.type, .reg q, 0⟩ :: top₂ :: rest₂ } h₃ :=
      ⟨ws, rfl, hrun₃⟩
    obtain rfl := ((hrun₁.trans hrun₂).trans hrun').unique hrun
    have hkept : Evolve h₂ h₃ (top₂ :: rest₂) (top₂ :: rest₂) := by
      refine evolve_of_frame hkeep fun v hv => hfree v ?_
      rw [hs₂]
      exact hv
    refine canonicalStack_cons (canonical_reg hv₂.integer hword) (hkept.canonical ?_)
    exact canonicalStack_cons hv₂ ((hrest₁.trans hrest₂).canonical hvs.tail)

theorem vstore_canonical {dt : Scalar} {s s' : Gen} {h h' : Hart} (hdt : dt.isInteger = true)
    (hstore : vstore_value dt s = some s') (hrun : Runs s h s' h')
    (hvs : CanonicalStack s.vstack h) (hok : CastOk dt s h) : CanonicalStack s'.vstack h' := by
  unfold vstore_value at hstore
  split at hstore
  · cases hstore
  · rename_i top rest hs
    rw [hs] at hvs
    split at hstore
    · rename_i hdelay
      simp only [Option.bind_eq_bind, Option.bind_eq_some_iff, Option.pure_def,
        Option.some.injEq] at hstore
      obtain ⟨s₁, hforce, ⟨r, s₂⟩, hgv, rfl⟩ := hstore
      obtain ⟨h₁, v, rest₁, hrun₁, hs₁, hrest₁, hv⟩ : ∃ h₁ v rest₁, Runs s h s₁ h₁ ∧
          s₁.vstack = v :: rest₁ ∧ Evolve h h₁ rest rest₁ ∧ Canonical v h₁ := by
        split at hforce
        · obtain ⟨h₁, v, rest₁, hrun₁, hs₁, hrest₁, -, -, hv⟩ :=
            force_charshort_cast_yields hforce hs hvs.head
          exact ⟨h₁, v, rest₁, hrun₁, hs₁, hrest₁, hv⟩
        · cases hforce
          exact ⟨h, top, rest, Runs.refl rfl h, hs, evolve_refl h rest, hvs.head⟩
      obtain ⟨h₂, rest₂, hrun₂, hs₂, hrest₂⟩ := gv_register hgv hs₁ hv
      obtain rfl := ((hrun₁.trans hrun₂).trans (Runs.refl (setTop_code _ _) h₂)).unique hrun
      rw [setTop, hs₂]
      refine canonicalStack_cons ?_ ((hrest₁.trans hrest₂).canonical hvs.tail)
      refine ⟨hdt, fun _ => ⟨?_, r, rfl⟩, fun _ _ hm => ?_, fun _ hloc => ?_, fun _ hloc => ?_,
        fun _ hloc => ?_, fun _ _ _ hloc => ?_⟩
      · exact hdelay.1.imp_right Or.inl
      · split at hm <;> cases hm
      all_goals cases hloc
    · simp only [Option.bind_eq_bind, Option.bind_eq_some_iff, Option.pure_def,
        Option.some.injEq] at hstore
      obtain ⟨s₁, hcast, ⟨r, s₂⟩, hgv, rfl⟩ := hstore
      obtain ⟨h₁, v, rest₁, hrun₁, hs₁, hrest₁, -, hsettled, hv⟩ :=
        gen_cast_yields hcast hs hvs.head hdt hok
      obtain ⟨h₂, rest₂, hrun₂, hs₂, htop₂, hrest₂⟩ := gv_evolve hgv hs₁ hv hsettled
      obtain rfl := (hrun₁.trans hrun₂).unique hrun
      rw [hs₂]
      exact canonicalStack_cons (htop₂.canonical hv) ((hrest₁.trans hrest₂).canonical hvs.tail)

theorem gv_canonical {s s' : Gen} {h h' : Hart} {r : Reg} (hgv : gv s = some (r, s'))
    (hrun : Runs s h s' h') (hvs : CanonicalStack s.vstack h) (hok : StepOk .gv s h) :
    CanonicalStack s'.vstack h' := by
  cases hs : s.vstack with
  | nil =>
    rw [gv, hs] at hgv
    cases hgv
  | cons top rest =>
    rw [hs] at hvs
    obtain ⟨h₁, rest₁, hrun₁, hs₁, htop, hrest⟩ :=
      gv_spec hgv hs hvs.head (gv_ok hvs.head hs hok)
    obtain rfl := hrun₁.unique hrun
    rw [hs₁]
    exact canonicalStack_cons htop (hrest.canonical hvs.tail)

theorem vcheck_cmp_canonical {s s' : Gen} {h h' : Hart} (hcheck : vcheck_cmp s = some s')
    (hrun : Runs s h s' h') (hvs : CanonicalStack s.vstack h) : CanonicalStack s'.vstack h' := by
  cases hs : s.vstack with
  | nil =>
    rw [vcheck_cmp, hs] at hcheck
    cases hcheck
    rw [hs]
    exact canonicalStack_nil _
  | cons top rest =>
    rw [hs] at hvs
    obtain ⟨h₁, top', rest', hrun₁, hs₁, htop, hrest⟩ := vcheck_cmp_evolve hcheck hs hvs.head
    obtain rfl := hrun₁.unique hrun
    rw [hs₁]
    exact canonicalStack_cons (htop.canonical hvs.head) (hrest.canonical hvs.tail)

theorem gen_op_canonical {op : Op} {s s' : Gen} {h h' : Hart}
    (hop : ¬(op = TOK_LAND ∨ op = TOK_LOR)) (hgen : gen_op op s = some s')
    (hrun : Runs s h s' h') (hvs : CanonicalStack s.vstack h) : CanonicalStack s'.vstack h' := by
  push Not at hop
  cases hs : s.vstack with
  | nil =>
    rw [gen_op, hs] at hgen
    cases hgen
  | cons v2 tail =>
    cases tail with
    | nil =>
      rw [gen_op, hs] at hgen
      cases hgen
    | cons v1 rest =>
      rw [hs] at hvs
      exact (gen_op_yields hop.1 hop.2 hgen hs hvs.head hvs.tail.head).canonicalStack hrun
        hvs.tail.tail

theorem gen_cast_canonical {dt : Scalar} {s s' : Gen} {h h' : Hart} (hdt : dt.isInteger = true)
    (hgen : gen_cast dt s = some s') (hrun : Runs s h s' h') (hvs : CanonicalStack s.vstack h)
    (hok : CastOk dt s h) : CanonicalStack s'.vstack h' := by
  cases hs : s.vstack with
  | nil =>
    rw [gen_cast, force_charshort_cast, hs] at hgen
    cases hgen
  | cons top rest =>
    rw [hs] at hvs
    exact (gen_cast_yields hgen hs hvs.head hdt hok).canonicalStack hrun hvs.tail

theorem force_charshort_cast_canonical {s s' : Gen} {h h' : Hart}
    (hforce : force_charshort_cast s = some s') (hrun : Runs s h s' h')
    (hvs : CanonicalStack s.vstack h) : CanonicalStack s'.vstack h' := by
  cases hs : s.vstack with
  | nil =>
    rw [force_charshort_cast, hs] at hforce
    cases hforce
  | cons top rest =>
    rw [hs] at hvs
    exact (force_charshort_cast_yields hforce hs hvs.head).canonicalStack hrun hvs.tail

theorem perform_canonical {a : Action} {s s' : Gen} {h h' : Hart} (hperform : perform a s = some s')
    (hrun : Runs s h s' h') (hok : StepOk a s h) (hvs : CanonicalStack s.vstack h) :
    CanonicalStack s'.vstack h' := by
  cases a with
  | vcheck_cmp => exact vcheck_cmp_canonical hperform hrun hvs
  | save_reg_upstack r n =>
    obtain ⟨h₁, hrun₁, -, hevolve, -⟩ := save_reg_upstack_spec hperform h
    obtain rfl := hrun₁.unique hrun
    exact hevolve.canonical hvs
  | gv =>
    obtain ⟨⟨r, t⟩, hgv, rfl⟩ := Option.map_eq_some_iff.mp hperform
    exact gv_canonical hgv hrun hvs hok
  | gv_dup => exact gv_dup_canonical hperform hrun hvs hok
  | gen_op op =>
    rw [perform, Option.ite_none_left_eq_some] at hperform
    exact gen_op_canonical hperform.1 hperform.2 hrun hvs
  | gen_cast dt =>
    rw [perform, Option.ite_none_right_eq_some] at hperform
    exact gen_cast_canonical hperform.1 hperform.2 hrun hvs hok
  | force_charshort_cast => exact force_charshort_cast_canonical hperform hrun hvs
  | vstore dt =>
    rw [perform, Option.ite_none_right_eq_some] at hperform
    exact vstore_canonical hperform.1 hperform.2 hrun hvs hok
  | edit | result | other => cases hperform

theorem step_canonical {a : Action} {s s' : Gen} {h h' : Hart} (hstep : Step a s h s' h')
    (hok : StepOk a s h) (hvs : CanonicalStack s.vstack h) : CanonicalStack s'.vstack h' := by
  cases hstep with
  | edit hedit =>
    intro v hv
    obtain hold | hfresh := hedit v hv
    · exact hvs v hold
    · exact hfresh.canonical h
  | code hperform hrun => exact perform_canonical hperform hrun hok hvs
  | result ht hword => exact canonicalStack_cons (canonical_reg ht hword) hvs
  | other hstack hkeep =>
    rw [hstack]
    exact (evolve_of_kept hkeep).canonical hvs

/-- In every state of a run the entries of the value stack are canonical. -/
theorem reachable_canonical {s : Gen} {h : Hart} (hreach : Reachable StepOk s h) :
    CanonicalStack s.vstack h := by
  induction hreach with
  | start hs =>
    rw [hs]
    exact canonicalStack_nil _
  | step _ hok hstep ih => exact step_canonical hstep hok ih
  | join _ _ hstack ih =>
    rw [← hstack]
    exact ih

/-- The instructions that are generated for two 32-bit operands in the registers
    `a` and `b`, or for `a` and a constant, give the result of C on their low words. -/
structure ComputesWords (h : Hart) (a b : BitVec 5) : Prop where
  operation : ∀ op d, op ≠ TOK_LAND → op ≠ TOK_LOR → d ≠ 0#5 →
    ∃ ws h', opil_code op false d a b = some ws ∧ run ws h = some h' ∧
      h'.get d = wordResult op ((h.get a).setWidth 32) ((h.get b).setWidth 32)
  immediate : ∀ op fc w f3 imm d instr, imm12 fc → gen_opil_imm op false fc = .cop w f3 imm →
    d ≠ 0#5 → EI (0x13#7 ||| w) f3 d a imm = some instr →
    ∃ h', run [instr] h = some h' ∧ h'.get d = wordResult op ((h.get a).setWidth 32) fc
  branch : ∀ op, op.isCmp = true →
    ∃ w, gjmp_cond op a b = some w ∧ exec w h = some { h with
      pc := h.pc + if op.holds ((h.get a).setWidth 32) ((h.get b).setWidth 32) then 4#64 else 8#64 }

theorem computesWords {h : Hart} {a b : BitVec 5} (ha : IsWord (h.get a)) (hb : IsWord (h.get b)) :
    ComputesWords h a b where
  operation op d hland hlor hd := by
    obtain ⟨ws, h', hcode, hrun, hset⟩ := opil_code_run op false hd a b h hland hlor
    refine ⟨ws, h', hcode, hrun, ?_⟩
    rw [hset.value, ← opil_value_words, ha, hb]
  immediate op fc w f3 imm d instr hfc himm hd hinstr := by
    obtain ⟨h', hrun, hset⟩ := gen_opil_imm_run himm hd hinstr hfc h
    refine ⟨h', hrun, ?_⟩
    rw [hset.value, ← opil_value_words, ha]
  branch op hop := by
    obtain ⟨w, hw, hexec⟩ := gjmp_cond_exec hop a b h
    refine ⟨w, hw, ?_⟩
    rw [hexec, ← holds_signExtend, ha, hb]

/-- An entry of type `int` or `unsigned int` that lives in a register. -/
def IntIn (s : Gen) (r : Reg) : Prop := ∃ v ∈ s.vstack, v.type.bt = VT_INT ∧ v.loc = .reg r

theorem intIn_isWord {s : Gen} {h : Hart} {r : Reg} (hvs : CanonicalStack s.vstack h)
    (hr : IntIn s r) : IsWord (h.get (ireg r)) := by
  obtain ⟨v, hv, hbt, hloc⟩ := hr
  have hcanon := hvs v hv
  refine hcanon.word r hloc ?_ (by rw [Scalar.isNarrow, hbt]; rfl)
  by_contra hcast
  obtain ⟨hb | hb | hb, -⟩ := hcanon.delayed hcast <;> rw [hbt] at hb <;> cases hb

/-- In every run whose steps meet `StepOk`, a register that holds an `int` or an
    `unsigned int` holds the sign extension of its low word, and the code generated
    for such operands gives the result of C. -/
theorem int_register_sign_extended {s : Gen} {h : Hart} (hreach : Reachable StepOk s h) :
    (∀ r, IntIn s r → IsWord (h.get (ireg r))) ∧
      (∀ a, IntIn s a → ComputesWords h (ireg a) 0#5) ∧
      ∀ a b, IntIn s a → IntIn s b → ComputesWords h (ireg a) (ireg b) := by
  have hvs := reachable_canonical hreach
  refine ⟨fun r hr => intIn_isWord hvs hr, fun a ha => ?_, fun a b ha hb => ?_⟩
  · exact computesWords (intIn_isWord hvs ha) (isWord_of_toNat_lt (by decide : (0#64).toNat < 2 ^ 31))
  · exact computesWords (intIn_isWord hvs ha) (intIn_isWord hvs hb)

/-- The value stack after a call of a function that returns a `long long`. -/
def longLongResult : Gen := ⟨[⟨.llong, .reg 0, 0⟩], 0#32, [], []⟩

/-- The code of the cast of that result to `unsigned int`: the value is shifted
    left by 32 bits and zero-extended back. -/
def uintOfLongLong : Gen :=
  ⟨[⟨.uint, .reg 0, 0⟩], 0#32, [], [0x02051513#32, 0x02055513#32]⟩

/-- A hart whose registers all hold `v`. -/
def filled (v : BitVec 64) : Hart := ⟨fun _ => v, fun _ => 0#8, 0#64⟩

theorem uintOfLongLong_runs (v : BitVec 64) :
    ∃ h', Runs longLongResult (filled v) uintOfLongLong h' ∧
      h'.get (ireg 0) = (v <<< 32) >>> 32 := by
  obtain ⟨h', d, rest, hrun, hs', -, hval⟩ :=
    @cast_shifts_spec ⟨VT_LLONG, true⟩ (Or.inr rfl) 32 0 (by decide) (by decide) longLongResult
      (retype ⟨VT_LLONG, true⟩ uintOfLongLong) _ 0 _ (filled v) rfl rfl
  have hd : d = 0 := by
    cases hs'
    rfl
  subst hd
  exact ⟨h', hrun, hval⟩

theorem longLongResult_reachable (ok : Action → Gen → Hart → Prop) (v : BitVec 64)
    (hok : ok (.result .llong 0) ⟨[], 0#32, [], []⟩ (filled v)) :
    Reachable ok longLongResult (filled v) :=
  .step (.start rfl) hok (.result rfl fun hn => by cases hn)

/-- A cast from `long long` whose operand has bit 31 clear is such a run. -/
theorem five_cast_to_uint : ∃ s h, Reachable StepOk s h ∧ IntIn s 0 ∧ IsWord (h.get (ireg 0)) := by
  obtain ⟨h', hrun, -⟩ := uintOfLongLong_runs 0x100000005#64
  have hreach : Reachable StepOk uintOfLongLong h' := by
    refine .step (a := .gen_cast .uint) (longLongResult_reachable StepOk _ trivial) ?_
      (.code rfl hrun)
    intro _ top rest hs _ _ _ r s₁ h₁ hgv hruns
    cases hs
    cases hgv
    obtain rfl := hruns.unique (Runs.refl rfl _)
    decide
  have hint : IntIn uintOfLongLong 0 := ⟨_, List.mem_cons_self, rfl, rfl⟩
  exact ⟨_, h', hreach, hint, (int_register_sign_extended hreach).1 0 hint⟩

/-- A `long long` with bit 31 set, cast to `unsigned int`, stays zero-extended in
    its register. -/
theorem cast_to_uint_zero_extends :
    ∃ s h, Reachable (fun _ _ _ => True) s h ∧ IntIn s 0 ∧ ¬IsWord (h.get (ireg 0)) := by
  obtain ⟨h', hrun, hval⟩ := uintOfLongLong_runs 0x80000000#64
  refine ⟨uintOfLongLong, h', ?_, ⟨_, List.mem_cons_self, rfl, rfl⟩, ?_⟩
  · exact .step (a := .gen_cast .uint) (longLongResult_reachable _ _ trivial) trivial
      (.code rfl hrun)
  · rw [hval, IsWord]
    decide

end tcc.riscv64
