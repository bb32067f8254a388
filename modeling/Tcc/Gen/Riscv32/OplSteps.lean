import Tcc.Gen.Riscv32.Opl

open machine.rv64 (Word)
open machine.rv32
open tcc.riscv64 (Result)

/-! What the calls of `gen_opl` make of the words on the stack. -/

namespace tcc.riscv32

open tcc.Op BType

/-- The word that a constant or a word is in a register. -/
def Held.got (v : Held) : BitVec 32 :=
  match v with
  | .const c => loaded_const c
  | .word x => x
  | _ => 0#32

theorem loadsWord_const_iff {c : BitVec 64} {x : BitVec 32} : LoadsWord (.const c) x ↔ x = loaded_const c := by
  constructor
  · rintro ⟨b, h, h', hb, hrun, rfl⟩
    obtain ⟨h₁, hload, hsets⟩ := load_const_sets h hb.ne_zero c
    rw [hrun, Option.some.injEq] at hload
    rw [hload, hsets.value]
  · rintro rfl
    have h : Hart := ⟨fun _ => 0#32, fun _ => 0#8, 0#32⟩
    obtain ⟨h', hload, hsets⟩ := load_const_sets h (b := 10) (by decide) c
    exact ⟨10, h, h', by decide, hload, hsets.value⟩

/-- Operands of a 32-bit operation that is left to the back end. -/
def Operable (v1 v2 : Held) : Prop :=
  match v1, v2 with
  | .word _, .word _ | .word _, .const _ | .const _, .word _ => True
  | _, _ => False

theorem Operable.cases {v1 v2 : Held} (hv : Operable v1 v2) :
    (∃ x y, v1 = .word x ∧ v2 = .word y) ∨ (∃ x c, v1 = .word x ∧ v2 = .const c) ∨
      ∃ c y, v1 = .const c ∧ v2 = .word y := by
  cases v1 with
  | word x =>
    cases v2 with
    | word y => exact Or.inl ⟨x, y, rfl, rfl⟩
    | const c => exact Or.inr (Or.inl ⟨x, c, rfl, rfl⟩)
    | _ => exact absurd hv id
  | const c =>
    cases v2 with
    | word y => exact Or.inr (Or.inr ⟨c, y, rfl, rfl⟩)
    | _ => exact absurd hv id
  | _ => exact absurd hv id

/-- A result that is worth `op` on `x` and `y`. -/
def Held.Means (op : Op) (x y : BitVec 32) (v : Held) : Prop :=
  match v with
  | .word z => op.isCmp = false ∧ z = op.alu x y
  | .cmp o p q jtrue jfalse =>
    op.isCmp = true ∧ o.isCmp = true ∧ o.holds p q = op.holds x y ∧ jtrue = [] ∧ jfalse = []
  | _ => False

theorem Leaves.means {op : Op} {x y : BitVec 32} {d b : BitVec 5} {h : Hart} {res : List Word × Result}
    (hres : Leaves op x y d b h res) :
    ∃ h', run res.1 h = some h' ∧ (result_held res.2 h').Means op x y := by
  obtain ⟨ws, result⟩ := res
  obtain ⟨h', hrun, -, hval⟩ := hres
  refine ⟨h', hrun, ?_⟩
  cases result with
  | reg q =>
    obtain ⟨hop, rfl, hval⟩ := hval
    exact ⟨hop, hval⟩
  | cmp o p q =>
    obtain ⟨hop, ho, hval⟩ := hval
    exact ⟨hop, ho, hval, rfl, rfl⟩

/-- The code of `gen_opi` works on its operands as they are loaded. -/
theorem gen_opi_code_means {op : Op} (hland : op ≠ TOK_LAND) (hlor : op ≠ TOK_LOR) {v1 v2 : Held}
    (hv : Operable v1 v2) (hsar : op = TOK_SAR → ∃ y, v2 = .word y) {d a b : BitVec 5} {h : Hart}
    (hd : Allocatable d) (ha : Allocatable a) (hb : Allocatable b)
    (hab : a = b → ∃ x y, v1 = .word x ∧ v2 = .word y) (h1 : v1.placed a h) (h2 : v2.placed b h) :
    ∃ ws r h', gen_opi_code op v1 v2 d a b = some (ws, r) ∧ run ws h = some h' ∧
      (result_held r h').Means op v1.got v2.got := by
  obtain ⟨x, y, rfl, rfl⟩ | ⟨x, c, rfl, rfl⟩ | ⟨c, y, rfl, rfl⟩ := hv.cases
  · obtain ⟨res, hgen, hleaves⟩ := gen_opil_reg_leaves hland hlor hd.ne_zero a b d h
    obtain ⟨h', hrun, hmeans⟩ := hleaves.means
    rw [show h.get a = x from h1, show h.get b = y from h2] at hmeans
    exact ⟨res.1, res.2, h', hgen, hrun, hmeans⟩
  · have hne : a ≠ b := fun heq => by
      obtain ⟨_, _, -, hcase⟩ := hab heq
      cases hcase
    have hnsar : op ≠ TOK_SAR := fun heq => by
      obtain ⟨y, hy⟩ := hsar heq
      cases hy
    obtain ⟨res, hgen, hleaves⟩ := gen_opil_any_leaves hland hlor hnsar hd.ne_zero hb.ne_zero hne c h
    obtain ⟨h', hrun, hmeans⟩ := hleaves.means
    rw [show h.get a = x from h1] at hmeans
    exact ⟨res.1, res.2, h', hgen, hrun, hmeans⟩
  · have hne : b ≠ a := fun heq => by
      obtain ⟨_, _, hcase, -⟩ := hab heq.symm
      cases hcase
    obtain ⟨h₁, hload, hsets⟩ := load_const_sets h ha.ne_zero c
    obtain ⟨res, hgen, hleaves⟩ := gen_opil_reg_leaves hland hlor hd.ne_zero a b d h₁
    obtain ⟨h', hrun, hmeans⟩ := hleaves.means
    rw [hsets.value, hsets.frame b hne, show h.get b = y from h2] at hmeans
    refine ⟨load_const (a.setWidth 32) c ++ res.1, res.2, h', ?_, ?_, hmeans⟩
    · rw [gen_opi_code, hgen]
      rfl
    · rw [run_append, hload]
      exact hrun

/-- Registers `a1` and `a2` with given operands. -/
theorem placed_exists {v1 v2 : Held} (hv : Operable v1 v2) :
    ∃ h, v1.placed 11 h ∧ v2.placed 12 h := by
  refine ⟨⟨fun q => if q = 11 then v1.got else v2.got, fun _ => 0#8, 0#32⟩, ?_⟩
  obtain ⟨x, y, rfl, rfl⟩ | ⟨x, c, rfl, rfl⟩ | ⟨c, y, rfl, rfl⟩ := hv.cases
  · exact ⟨rfl, rfl⟩
  · exact ⟨rfl, trivial⟩
  · exact ⟨trivial, rfl⟩

section

variable {op : Op} {v1 v2 : Held}

theorem emits_exists (hland : op ≠ TOK_LAND) (hlor : op ≠ TOK_LOR) (hv : Operable v1 v2)
    (hsar : op = TOK_SAR → ∃ y, v2 = .word y) : ∃ res, Emits op v1 v2 res := by
  obtain ⟨h, h1, h2⟩ := placed_exists hv
  have hab : (11 : BitVec 5) = 12 → ∃ x y, v1 = .word x ∧ v2 = .word y :=
    fun heq => absurd heq (by decide)
  have h10 : Allocatable 10 := by decide
  have h11 : Allocatable 11 := by decide
  have h12 : Allocatable 12 := by decide
  obtain ⟨ws, r, h', hgen, hrun, -⟩ := gen_opi_code_means hland hlor hv hsar h10 h11 h12 hab h1 h2
  exact ⟨_, 10, 11, 12, h, ws, r, h', h10, h11, h12, hab, h1, h2, hgen, hrun, rfl⟩

theorem Emits.means (hland : op ≠ TOK_LAND) (hlor : op ≠ TOK_LOR) (hv : Operable v1 v2)
    (hsar : op = TOK_SAR → ∃ y, v2 = .word y) {res : Held} (hres : Emits op v1 v2 res) :
    res.Means op v1.got v2.got := by
  obtain ⟨d, a, b, h, ws, r, h', hd, ha, hb, hab, h1, h2, hgen, hrun, rfl⟩ := hres
  obtain ⟨ws', r', h₁, hgen', hrun', hmeans⟩ := gen_opi_code_means hland hlor hv hsar hd ha hb hab h1 h2
  rw [hgen, Option.some.injEq, Prod.mk.injEq] at hgen'
  obtain ⟨rfl, rfl⟩ := hgen'
  rw [hrun, Option.some.injEq] at hrun'
  rw [hrun']
  exact hmeans

theorem emits_value_iff (hop : op.isCmp = false) (hland : op ≠ TOK_LAND) (hlor : op ≠ TOK_LOR)
    (hv : Operable v1 v2) (hsar : op = TOK_SAR → ∃ y, v2 = .word y) {res : Held} :
    Emits op v1 v2 res ↔ res = .word (op.alu v1.got v2.got) := by
  have hvalue {r : Held} (hr : Emits op v1 v2 r) : r = .word (op.alu v1.got v2.got) := by
    have hmeans := hr.means hland hlor hv hsar
    cases r with
    | word z => rw [hmeans.2]
    | cmp o p q jtrue jfalse => exact absurd (hop.symm.trans hmeans.1) (by decide)
    | const c | pair lo hi => exact absurd hmeans id
  constructor
  · exact hvalue
  · rintro rfl
    obtain ⟨r, hr⟩ := emits_exists hland hlor hv hsar
    rw [← hvalue hr]
    exact hr

end

/-- An arithmetic shift by a constant is one by a register: any number of bits. -/
theorem emits_sar_iff {x y : BitVec 32} (hy : y.toNat < 32) (hy0 : y ≠ 0#32) {res : Held} :
    Emits TOK_SAR (.word x) (.const (y.setWidth 64)) res ↔ ∃ m < 32, res = .word (x.sshiftRight m) := by
  have hcode (d a b : BitVec 5) : gen_opi_code TOK_SAR (.word x) (.const (y.setWidth 64)) d a b =
      some ([emit_SRA (d.setWidth 32) (a.setWidth 32) ((y.setWidth 5).setWidth 32)], .reg d) :=
    gen_opil_sar hy (Or.inr rfl) d a b
  have hexec (d a : BitVec 5) (h : Hart) :
      run [emit_SRA (d.setWidth 32) (a.setWidth 32) ((y.setWidth 5).setWidth 32)] h =
        some (h.set d ((h.get a).sshiftRight ((h.get (y.setWidth 5)).toNat % 32))).next := by
    rw [run_cons]
    exact congrArg (·.bind (run [])) (exec_emit_op 0x20#7 5#3 d a (y.setWidth 5) h rfl)
  constructor
  · rintro ⟨d, a, b, h, ws, r, h', hd, ha, hb, hab, h1, h2, hgen, hrun, rfl⟩
    rw [hcode, Option.some.injEq, Prod.mk.injEq] at hgen
    obtain ⟨rfl, rfl⟩ := hgen
    rw [hexec, Option.some.injEq] at hrun
    refine ⟨(h.get (y.setWidth 5)).toNat % 32, Nat.mod_lt _ (by decide), ?_⟩
    rw [← hrun, result_held, Hart.get_next, Hart.get_set_self h hd.ne_zero, show h.get a = x from h1]
  · rintro ⟨m, hm, rfl⟩
    have hreg : y.setWidth 5 ≠ 0#5 := by
      intro hzero
      apply hy0
      have hnat := congrArg BitVec.toNat hzero
      rw [BitVec.toNat_setWidth] at hnat
      apply BitVec.eq_of_toNat_eq
      change y.toNat % 32 = 0 at hnat
      change y.toNat = 0
      omega
    obtain ⟨a, ha, h0, hay⟩ : ∃ a : BitVec 5, Allocatable a ∧ a ≠ 12 ∧ a ≠ y.setWidth 5 := by
      by_cases h10 : y.setWidth 5 = 10#5
      · exact ⟨11, by decide, by decide, by rw [h10]; decide⟩
      · exact ⟨10, by decide, by decide, Ne.symm h10⟩
    let h : Hart := ⟨fun q => if q = a then x else BitVec.ofNat 32 m, fun _ => 0#8, 0#32⟩
    have hx : h.get a = x := (if_neg ha.ne_zero).trans (if_pos rfl)
    have hm' : (h.get (y.setWidth 5)).toNat % 32 = m := by
      have hget : h.get (y.setWidth 5) = BitVec.ofNat 32 m := (if_neg hreg).trans (if_neg (Ne.symm hay))
      rw [hget, BitVec.toNat_ofNat]
      omega
    refine ⟨10, a, 12, h, _, _, _, by decide, ha, by decide, fun heq => absurd heq h0, hx, trivial,
      hcode 10 a 12, hexec 10 a h, ?_⟩
    rw [result_held, Hart.get_next, Hart.get_set_self h (by decide), hx, hm']

/-- The jump after a comparison is taken exactly when the comparison holds. -/
theorem jumps_iff {op : Op} (hop : op.isCmp = true) {x y : BitVec 32} {taken : Bool} :
    Jumps op x y taken ↔ taken = op.holds x y := by
  have hpc {pc : BitVec 32} {s t : Bool} :
      (pc + if s then 4#32 else 8#32) = (pc + if t then 4#32 else 8#32) ↔ s = t := by
    rw [BitVec.add_right_inj]
    cases s <;> cases t <;> decide
  constructor
  · rintro ⟨a, b, w, h, h', rfl, rfl, hcond, hexec, htaken⟩
    obtain ⟨w', hcond', hexec'⟩ := gjmp_cond_exec hop a b h
    rw [hcond, Option.some.injEq] at hcond'
    rw [← hcond', hexec, Option.some.injEq] at hexec'
    rw [hexec'] at htaken
    exact (hpc.mp htaken).symm
  · rintro rfl
    let h : Hart := ⟨fun q => if q = 10 then x else y, fun _ => 0#8, 0#32⟩
    obtain ⟨w, hcond, hexec⟩ := gjmp_cond_exec hop 10 11 h
    exact ⟨10, 11, w, h, _, rfl, rfl, hcond, hexec, rfl⟩

end tcc.riscv32
