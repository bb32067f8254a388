import Tcc.Gen.Cond.Expr
import Tcc.Gen.Cond.Shape

open machine.backpatch

namespace tcc.cond

/-- The state of a run: the trace lists the operands evaluated so far. -/
structure State where
  pc : Nat
  regs : Nat → BitVec 64
  trace : List Nat

def read (regs : Nat → BitVec 64) : Option Nat → BitVec 64
  | none => 0#64
  | some r => regs r

def Instr.exec (env : Nat → BitVec 64) (s : State) : Instr → State
  | operand k r => ⟨s.pc + 1, Function.update s.regs r (env k), s.trace ++ [k]⟩
  | li r v => ⟨s.pc + 1, Function.update s.regs r v, s.trace⟩
  | mv d r => ⟨s.pc + 1, Function.update s.regs d (s.regs r), s.trace⟩
  | set op d a b =>
    ⟨s.pc + 1, Function.update s.regs d (boolWord (op.1.holds (s.regs a) (read s.regs b))), s.trace⟩
  | branch op a b =>
    ⟨if op.1.holds (s.regs a) (read s.regs b) then s.pc + 1 else s.pc + 2, s.regs, s.trace⟩

/-- A jump without a target goes nowhere. -/
def step (env : Nat → BitVec 64) (C : Nat → Option (Item Instr)) (s : State) : Option State :=
  match C s.pc with
  | some (.instr i) => some (i.exec env s)
  | some (.jump (some a)) => some { s with pc := a }
  | _ => none

/-- The runs of a finished code. -/
abbrev Reach (env : Nat → BitVec 64) (C : Nat → Option (Item Instr)) : State → State → Prop :=
  Relation.ReflTransGen fun s s' => step env C s = some s'

/-- `g'` comes from `g` by emitting code and giving targets to jumps from `n` on. -/
structure Emits (n : Nat) (g g' : Gen) : Prop where
  grows : Grows n g.code g'.code
  completes : ∀ {C}, Completes C g'.code → Completes C g.code
  nocode : g'.nocode = g.nocode

namespace Emits

variable {n m : Nat} {g g₁ g₂ : Gen}

theorem refl (n : Nat) (g : Gen) : Emits n g g := ⟨Grows.refl n g.code, id, rfl⟩

theorem trans (h₁ : Emits n g g₁) (h₂ : Emits n g₁ g₂) : Emits n g g₂ :=
  ⟨h₁.grows.trans h₂.grows, fun h => h₁.completes (h₂.completes h), h₂.nocode.trans h₁.nocode⟩

theorem mono (h : Emits m g g₁) (hnm : n ≤ m) : Emits n g g₁ :=
  ⟨h.grows.mono hnm, h.completes, h.nocode⟩

theorem ind_le (h : Emits n g g₁) : g.ind ≤ g₁.ind := h.grows.length_le

end Emits

section

variable {n : Nat} {g : Gen} {t u rest : Chain}

theorem o_of_live (hg : g.live = true) (i : Item Instr) : g.o i = { g with code := g.code ++ [i] } :=
  if_pos hg

theorem o_of_not_live (hg : g.live = false) (i : Item Instr) : g.o i = g :=
  if_neg (by rw [hg]; exact Bool.false_ne_true)

theorem live_iff : g.live = true ↔ g.nocode = 0 ∧ g.off = false := by
  rw [Gen.live, Bool.and_eq_true, beq_iff_eq, Bool.not_eq_true']

theorem gsym_nil (g : Gen) : gsym [] g = g := if_pos rfl

theorem gsym_of_ne (hu : u ≠ []) (g : Gen) :
    gsym u g = { g with code := patch g.code u g.ind, off := false } := if_neg hu

@[simp] theorem ind_gsym (u : Chain) (g : Gen) : (gsym u g).ind = g.ind := by
  rw [gsym]
  split
  · rfl
  · exact length_patch g.code u g.ind

@[simp] theorem nocode_gsym (u : Chain) (g : Gen) : (gsym u g).nocode = g.nocode := by
  rw [gsym]
  split <;> rfl

theorem off_gsym (u : Chain) (g : Gen) : (gsym u g).off = (u.isEmpty && g.off) := by
  cases u with
  | nil => rw [gsym_nil]; rfl
  | cons p u => rw [gsym_of_ne (by simp)]; rfl

/-- The label that `gsym` makes of the current address. -/
theorem gsym_spec (hu : ∀ p ∈ u, n ≤ p ∧ Pending g.code p) :
    Emits n g (gsym u g) ∧ ∀ {C}, Completes C (gsym u g).code →
      ∀ p ∈ u, C p = some (.jump (some g.ind)) := by
  rw [gsym]
  split
  · rename_i hnil
    subst hnil
    exact ⟨Emits.refl n g, fun _ p hp => (List.not_mem_nil hp).elim⟩
  · refine ⟨⟨Grows.patch (fun p hp => (hu p hp).1) _, fun h => ?_, rfl⟩, fun h => ?_⟩
    · exact (Completes.patch (fun p hp => (hu p hp).2) h).1
    · exact (Completes.patch (fun p hp => (hu p hp).2) h).2

theorem pending_gsym (h : PendingFrom n g.code (u ++ rest)) : PendingFrom n (gsym u g).code rest := by
  rw [gsym]
  split
  · rename_i hnil
    rwa [hnil] at h
  · exact h.patch g.ind

theorem pending_of_mem (h : PendingFrom n g.code t) {p : Nat} (hp : p ∈ t) :
    n ≤ p ∧ Pending g.code p := (h.mem_iff p).mp hp

end

/-- The truth of a comparison that is not materialised. -/
def CmpOp.holds (op : CmpOp) (a : Nat) (b : Option Nat) (regs : Nat → BitVec 64) : Bool :=
  match op with
  | flag c => c
  | rel op => op.1.holds (regs a) (read regs b)

/-- The jump of `gvtst`. -/
def jump_if (inv : Bool) (op : CmpOp) (a : Nat) (b : Option Nat) (t : Chain) (g : Gen) : Chain × Gen :=
  match op with
  | .rel op => gjmp_cond (op.xor inv) a b t g
  | .flag op => if op != inv then gjmp t g else (t, g)

theorem gvtst_cmp (inv : Bool) (t : Chain) (op : CmpOp) (a : Nat) (b : Option Nat)
    (jtrue jfalse : Chain) (g : Gen) : gvtst inv t (.cmp op a b jtrue jfalse) g =
      let r := jump_if inv op a b ((if inv then jfalse else jtrue) ++ t) g
      (r.1, gsym (if inv then jtrue else jfalse) r.2) := by
  cases inv <;> rfl

theorem gvtst_test (inv : Bool) (t : Chain) (v : SValue) (g : Gen) :
    gvtst inv t v g = gvtst inv t v.test g := by
  cases v <;> rfl

theorem step_instr {env : Nat → BitVec 64} {C : Nat → Option (Item Instr)} {s : State} {i : Instr}
    (h : C s.pc = some (.instr i)) : Reach env C s (i.exec env s) :=
  Relation.ReflTransGen.single (by rw [step, h])

theorem step_jump {env : Nat → BitVec 64} {C : Nat → Option (Item Instr)} {s : State} {a : Nat}
    (h : C s.pc = some (.jump (some a))) : Reach env C s { s with pc := a } :=
  Relation.ReflTransGen.single (by rw [step, h])

section

variable {n : Nat} {g : Gen} {inv : Bool} {op : CmpOp} {a : Nat} {b : Option Nat} {t rest : Chain}

theorem gjmp_jump_live (hg : g.live = true) (t : Chain) :
    gjmp_jump t g = (g.ind :: t, { g with code := g.code ++ [.jump none] }) := by
  rw [gjmp_jump, if_pos hg, o_of_live hg]

theorem gjmp_jump_not_live (hg : g.live = false) (t : Chain) : gjmp_jump t g = (t, g) := by
  rw [gjmp_jump, if_neg (by rw [hg]; exact Bool.false_ne_true)]

/-- Without code, nothing is emitted and only the bit can change. -/
theorem jump_if_not_live (hg : g.live = false) : jump_if inv op a b t g =
    (t, { g with off := g.off || op.flag? == some !inv }) := by
  cases op with
  | rel op =>
    rw [jump_if, gjmp_cond, o_of_not_live hg, gjmp_jump_not_live hg]
    simp [CmpOp.flag?]
  | flag c =>
    rw [jump_if, gjmp, gjmp_jump_not_live hg]
    cases c <;> cases inv <;> simp [CmpOp.flag?, Gen.code_off]

/-- The code of the jump, and where it leads. -/
theorem jump_if_live (hg : g.live = true) (hn : n ≤ g.ind)
    (hpending : PendingFrom n g.code (t ++ rest)) :
    Emits n g (jump_if inv op a b t g).2 ∧
      PendingFrom n (jump_if inv op a b t g).2.code ((jump_if inv op a b t g).1 ++ rest) ∧
      (∀ p ∈ t, p ∈ (jump_if inv op a b t g).1) ∧
      ((jump_if inv op a b t g).1.isEmpty = (t.isEmpty && op.flag? == some inv)) ∧
      (jump_if inv op a b t g).2.off = (op.flag? == some !inv) ∧
      ∀ env C, Completes C (jump_if inv op a b t g).2.code → ∀ L,
        (∀ p ∈ (jump_if inv op a b t g).1, C p = some (.jump (some L))) → ∀ regs trace,
          if op.holds a b regs = !inv then
            (jump_if inv op a b t g).1 ≠ [] ∧
              Reach env C ⟨g.ind, regs, trace⟩ ⟨L, regs, trace⟩
          else
            (jump_if inv op a b t g).2.off = false ∧
              Reach env C ⟨g.ind, regs, trace⟩ ⟨(jump_if inv op a b t g).2.ind, regs, trace⟩ := by
  obtain ⟨hnocode, hoff⟩ := live_iff.mp hg
  cases op with
  | rel op =>
    have hg' : ({ g with code := g.code ++ [.instr (.branch (op.xor inv) a b)] } : Gen).live = true :=
      hg
    have heq : jump_if inv (.rel op) a b t g = ((g.ind + 1) :: t, { g with
        code := g.code ++ [.instr (.branch (op.xor inv) a b)] ++ [.jump none] }) := by
      rw [jump_if, gjmp_cond, o_of_live hg, gjmp_jump_live hg']
      simp [Gen.ind]
    rw [heq]
    refine ⟨⟨?_, fun h => h.append.append, rfl⟩, ?_, fun p hp => List.mem_cons_of_mem _ hp, by
      simp [CmpOp.flag?], by simp [CmpOp.flag?, hoff], ?_⟩
    · exact (Grows.append hn _).trans (Grows.append (hn.trans (by simp [Gen.ind])) _)
    · have h := (hpending.append_instr (.branch (op.xor inv) a b)).append_pending
        (hn.trans (by simp [Gen.ind]))
      simpa [Gen.ind] using h
    · intro env C hC L hL regs trace
      have hbranch : C g.ind = some (.instr (.branch (op.xor inv) a b)) :=
        hC.instr (by simp [Gen.ind])
      have hfirst : Reach env C ⟨g.ind, regs, trace⟩ _ := step_instr hbranch
      rw [Instr.exec, Rel.holds_xor] at hfirst
      change if op.1.holds (regs a) (read regs b) = !inv then _ else _
      cases hholds : op.1.holds (regs a) (read regs b) <;> cases inv <;> rw [hholds] at hfirst
      · exact ⟨hoff, by simpa [Gen.ind] using hfirst⟩
      · exact ⟨List.cons_ne_nil _ _, hfirst.trans (step_jump (hL _ (List.mem_cons_self)))⟩
      · exact ⟨List.cons_ne_nil _ _, hfirst.trans (step_jump (hL _ (List.mem_cons_self)))⟩
      · exact ⟨hoff, by simpa [Gen.ind] using hfirst⟩
  | flag c =>
    by_cases hc : c = inv
    · have heq : jump_if inv (.flag c) a b t g = (t, g) := by
        rw [jump_if, hc]
        simp
      rw [heq]
      refine ⟨Emits.refl n g, hpending, fun _ h => h, by simp [CmpOp.flag?, hc], ?_, ?_⟩
      · rw [hoff]
        simp [CmpOp.flag?, hc]
      · intro env C _ L _ regs trace
        simp only [CmpOp.holds, hc]
        cases inv <;> exact ⟨hoff, Relation.ReflTransGen.refl⟩
    · have heq : jump_if inv (.flag c) a b t g =
          (g.ind :: t, { g with code := g.code ++ [.jump none], off := true }) := by
        rw [jump_if, if_pos (by simpa using hc), gjmp, gjmp_jump_live hg]
        rfl
      have hc' : c = !inv := by
        cases c <;> cases inv <;> simp_all
      rw [heq]
      refine ⟨⟨Grows.append hn _, fun h => h.append, rfl⟩, hpending.append_pending hn,
        fun p hp => List.mem_cons_of_mem _ hp, by simp [CmpOp.flag?, hc'], by simp [CmpOp.flag?, hc'], ?_⟩
      intro env C _ L hL regs trace
      simp only [CmpOp.holds, hc', if_true]
      exact ⟨List.cons_ne_nil _ _, step_jump (hL _ (List.mem_cons_self))⟩

end
/-- A run from address `n₀` that keeps the registers named before it. -/
def Runs (env : Nat → BitVec 64) (C : Nat → Option (Item Instr)) (n₀ : Nat) (regs : Nat → BitVec 64)
    (trace : List Nat) (pc : Nat) (regs' : Nat → BitVec 64) (tr : List Nat) : Prop :=
  Reach env C ⟨n₀, regs, trace⟩ ⟨pc, regs', trace ++ tr⟩ ∧ ∀ r < n₀, regs' r = regs r

theorem Runs.trans {env : Nat → BitVec 64} {C : Nat → Option (Item Instr)} {n₀ n₁ pc : Nat}
    {regs regs₁ regs₂ : Nat → BitVec 64} {trace tr₁ tr₂ : List Nat}
    (h₁ : Runs env C n₀ regs trace n₁ regs₁ tr₁) (hn : n₀ ≤ n₁)
    (h₂ : Runs env C n₁ regs₁ (trace ++ tr₁) pc regs₂ tr₂) :
    Runs env C n₀ regs trace pc regs₂ (tr₁ ++ tr₂) := by
  refine ⟨h₁.1.trans ?_, fun r hr => (h₂.2 r (by omega)).trans (h₁.2 r hr)⟩
  rw [← List.append_assoc]
  exact h₂.1

/-- How a run of the code of `v` ends that comes to the value `m.1` by evaluating `m.2`: at
    `pc`, if code is on there, or at `LT` or `LF`, where the chains of `v` lead. -/
def Outcome (env : Nat → BitVec 64) (C : Nat → Option (Item Instr)) (n₀ : Nat)
    (regs : Nat → BitVec 64) (trace : List Nat) (v : SValue) (on : Bool) (pc LT LF : Nat)
    (m : BitVec 64 × List Nat) : Prop :=
  match v with
  | .const _ c => on = true ∧ c = m.1 ∧ ∃ regs', Runs env C n₀ regs trace pc regs' m.2
  | .reg _ r => on = true ∧ r < pc ∧ ∃ regs', Runs env C n₀ regs trace pc regs' m.2 ∧ regs' r = m.1
  | .cmp op a b jtrue jfalse => ∃ regs',
    (m.1 = 1#64 ∧ jtrue ≠ [] ∧ Runs env C n₀ regs trace LT regs' m.2) ∨
      (m.1 = 0#64 ∧ jfalse ≠ [] ∧ Runs env C n₀ regs trace LF regs' m.2) ∨
        (on = true ∧ m.1 = boolWord (op.holds a b regs') ∧ Runs env C n₀ regs trace pc regs' m.2)

/-- The code up to `g`, entered at `n₀`, gives `v` the meaning `m`. -/
def Delivers (env : Nat → BitVec 64) (m : BitVec 64 × List Nat) (n₀ : Nat) (v : SValue) (g : Gen) :
    Prop :=
  ∀ C, Completes C g.code → ∀ LT LF, (∀ p ∈ v.jtrue, C p = some (.jump (some LT))) →
    (∀ p ∈ v.jfalse, C p = some (.jump (some LF))) → ∀ regs trace,
      Outcome env C n₀ regs trace v (!g.off) g.ind LT LF m

/-- The code up to `g`, entered at `n₀`, goes to the chain's target if the truth of `m` is
    not `inv`, and falls through otherwise. -/
def Tests (env : Nat → BitVec 64) (m : BitVec 64 × List Nat) (n₀ : Nat) (inv : Bool) (t : Chain)
    (g : Gen) : Prop :=
  ∀ C, Completes C g.code → ∀ L, (∀ p ∈ t, C p = some (.jump (some L))) → ∀ regs trace, ∃ regs',
    if (m.1 != 0#64) = !inv then t ≠ [] ∧ Runs env C n₀ regs trace L regs' m.2
    else g.off = false ∧ Runs env C n₀ regs trace g.ind regs' m.2

def truth (m : BitVec 64 × List Nat) : BitVec 64 × List Nat := (boolWord (m.1 != 0#64), m.2)

def SValue.isCmp : SValue → Bool
  | cmp .. => true
  | _ => false

theorem boolWord_ne_zero (b : Bool) : (boolWord b != 0#64) = b := by
  cases b <;> rfl

@[simp] theorem jtrue_test (v : SValue) : v.test.jtrue = v.jtrue := by
  cases v <;> rfl

@[simp] theorem jfalse_test (v : SValue) : v.test.jfalse = v.jfalse := by
  cases v <;> rfl

theorem shape_test (v : SValue) : v.test.shape = v.shape.test := by
  cases v <;> rfl

section

variable {env : Nat → BitVec 64} {C : Nat → Option (Item Instr)} {n₀ : Nat} {regs : Nat → BitVec 64}
  {trace : List Nat} {v : SValue} {on : Bool} {pc LT LF : Nat} {m : BitVec 64 × List Nat} {g : Gen}

/-- The value of a comparison is its truth. -/
theorem Outcome.test (h : Outcome env C n₀ regs trace v on pc LT LF m) :
    Outcome env C n₀ regs trace v.test on pc LT LF (truth m) := by
  cases v with
  | const ty c =>
    obtain ⟨hon, hval, regs', hruns⟩ := h
    refine ⟨regs', Or.inr (Or.inr ⟨hon, ?_, hruns⟩)⟩
    rw [truth, ← hval]
    rfl
  | reg ty r =>
    obtain ⟨hon, -, regs', hruns, hval⟩ := h
    refine ⟨regs', Or.inr (Or.inr ⟨hon, ?_, hruns⟩)⟩
    rw [truth, ← hval]
    rfl
  | cmp op a b jtrue jfalse =>
    have hbool (c : Bool) (hc : m.1 = boolWord c) : truth m = m := by
      rw [truth, hc, boolWord_ne_zero, ← hc]
    obtain ⟨regs', hout⟩ := h
    refine ⟨regs', ?_⟩
    obtain ⟨hval, hout⟩ | ⟨hval, hout⟩ | ⟨hon, hval, hout⟩ := hout
    · rw [hbool true hval]
      exact Or.inl ⟨hval, hout⟩
    · rw [hbool false hval]
      exact Or.inr (Or.inl ⟨hval, hout⟩)
    · rw [hbool _ hval]
      exact Or.inr (Or.inr ⟨hon, hval, hout⟩)

theorem Delivers.test (h : Delivers env m n₀ v g) : Delivers env (truth m) n₀ v.test g := by
  intro C hC LT LF hLT hLF regs trace
  rw [jtrue_test] at hLT
  rw [jfalse_test] at hLF
  exact (h C hC LT LF hLT hLF regs trace).test

/-- Where code is off, a value has been left by a jump. -/
theorem Delivers.alive (h : Delivers env m n₀ v g) (hoff : g.off = true) :
    v.jtrue ≠ [] ∨ v.jfalse ≠ [] := by
  by_contra hnil
  rw [not_or, not_not, not_not] at hnil
  obtain ⟨C, hC, -⟩ := exists_completes g.code 0
  have hout := h C hC 0 0 (by simp [hnil.1]) (by simp [hnil.2]) (fun _ => 0#64) []
  cases v with
  | const => simp [hoff, Outcome] at hout
  | reg => simp [hoff, Outcome] at hout
  | cmp op a b jtrue jfalse =>
    obtain ⟨regs', ⟨-, hne, -⟩ | ⟨-, hne, -⟩ | ⟨hon, -⟩⟩ := hout
    · exact hne hnil.1
    · exact hne hnil.2
    · rw [hoff] at hon
      cases hon

theorem Delivers.isCmp (h : Delivers env m n₀ v g) (hoff : g.off = true) : v.isCmp = true := by
  have halive := h.alive hoff
  cases v with
  | const | reg => exact absurd rfl (halive.resolve_left (· rfl))
  | cmp => rfl

end

theorem isEmpty_append (t u : Chain) : List.isEmpty (t ++ u) = (t.isEmpty && u.isEmpty) := by
  cases t <;> rfl

theorem test_eq_cmp (v : SValue) : ∃ op a b, v.test = .cmp op a b v.jtrue v.jfalse := by
  cases v with
  | const ty c => exact ⟨_, _, _, rfl⟩
  | reg ty r => exact ⟨_, _, _, rfl⟩
  | cmp op a b jtrue jfalse => exact ⟨_, _, _, rfl⟩

theorem can_eq {v : SValue} {op : CmpOp} {a : Nat} {b : Option Nat}
    (hv : v.test = .cmp op a b v.jtrue v.jfalse) (c on : Bool) : v.shape.can c on =
      ((if c then !v.jtrue.isEmpty else !v.jfalse.isEmpty) || (on && op.flag? != some !c)) := by
  rw [Shape.can, ← shape_test, hv]
  rfl

section

variable {n : Nat} {g : Gen} {inv : Bool} {v : SValue} {t rest : Chain}

/-- A test where code is off: only the chains lead on. -/
theorem gvtst_off (hoff : g.off = true) (hcmp : v.isCmp = true)
    (hpending : PendingFrom n g.code (t ++ (v.jtrue ++ (v.jfalse ++ rest)))) :
    Emits n g (gvtst inv t v g).2 ∧
      PendingFrom n (gvtst inv t v g).2.code ((gvtst inv t v g).1 ++ rest) ∧
      (∀ p ∈ t, p ∈ (gvtst inv t v g).1) ∧
      ((gvtst inv t v g).1.isEmpty = (t.isEmpty && !v.shape.can (!inv) false)) ∧
      (gvtst inv t v g).2.off = !v.shape.can inv false ∧
      ∀ env m n₀, Delivers env m n₀ v g →
        Tests env m n₀ inv (gvtst inv t v g).1 (gvtst inv t v g).2 := by
  cases v with
  | const | reg => cases hcmp
  | cmp op a b jtrue jfalse =>
    have hlive : g.live = false := by rw [Gen.live, hoff, Bool.not_true, Bool.and_false]
    have hg : ({ g with off := g.off || op.flag? == some !inv } : Gen) = g := by
      rw [hoff, Bool.true_or, ← hoff]
    rw [gvtst_cmp, jump_if_not_live hlive, hg]
    have hperm : PendingFrom n g.code ((if inv then jtrue else jfalse) ++
        ((if inv then jfalse else jtrue) ++ t ++ rest)) := by
      refine hpending.perm ?_
      cases inv
      · simp only [SValue.jtrue, SValue.jfalse, Bool.false_eq_true, if_false]
        exact List.perm_iff_count.mpr fun p => by simp only [List.count_append]; omega
      · simp only [SValue.jtrue, SValue.jfalse, if_true]
        exact List.perm_iff_count.mpr fun p => by simp only [List.count_append]; omega
    obtain ⟨hemits, hlabel⟩ := gsym_spec (u := if inv then jtrue else jfalse)
      fun p hp => pending_of_mem hperm (List.mem_append_left _ hp)
    refine ⟨hemits, pending_gsym hperm, fun p hp => List.mem_append_right _ hp, ?_, ?_, ?_⟩
    · rw [isEmpty_append, Bool.and_comm]
      cases inv <;> simp [Shape.can, Shape.test, SValue.shape]
    · rw [off_gsym, hoff]
      cases inv <;> simp [Shape.can, Shape.test, SValue.shape]
    · intro env m n₀ hdelivers C hC L hL regs trace
      have hout := hdelivers C (hemits.completes hC) (if inv then g.ind else L)
        (if inv then L else g.ind) (fun p hp => ?_) (fun p hp => ?_) regs trace
      · obtain ⟨regs', ⟨hval, hne, hruns⟩ | ⟨hval, hne, hruns⟩ | ⟨hon, -, -⟩⟩ := hout
        · refine ⟨regs', ?_⟩
          rw [hval]
          cases inv
          · exact ⟨fun hnil => hne (List.append_eq_nil_iff.mp hnil).1, hruns⟩
          · refine ⟨?_, by simpa using hruns⟩
            rw [off_gsym]
            simp [hne]
        · refine ⟨regs', ?_⟩
          rw [hval]
          cases inv
          · refine ⟨?_, by simpa using hruns⟩
            rw [off_gsym]
            simp [hne]
          · exact ⟨fun hnil => hne (List.append_eq_nil_iff.mp hnil).1, hruns⟩
        · rw [hoff] at hon
          cases hon
      · cases inv
        · exact hL p (List.mem_append_left _ hp)
        · exact hlabel hC p hp
      · cases inv
        · exact hlabel hC p hp
        · exact hL p (List.mem_append_left _ hp)

/-- A test where code is on. -/
theorem gvtst_on (hlive : g.live = true) (hn : n ≤ g.ind)
    (hpending : PendingFrom n g.code (t ++ (v.jtrue ++ (v.jfalse ++ rest)))) :
    Emits n g (gvtst inv t v g).2 ∧
      PendingFrom n (gvtst inv t v g).2.code ((gvtst inv t v g).1 ++ rest) ∧
      (∀ p ∈ t, p ∈ (gvtst inv t v g).1) ∧
      ((gvtst inv t v g).1.isEmpty = (t.isEmpty && !v.shape.can (!inv) true)) ∧
      (gvtst inv t v g).2.off = !v.shape.can inv true ∧
      ∀ env m n₀, Delivers env m n₀ v g →
        Tests env m n₀ inv (gvtst inv t v g).1 (gvtst inv t v g).2 := by
  obtain ⟨hnocode, hoff⟩ := live_iff.mp hlive
  obtain ⟨op, a, b, hv⟩ := test_eq_cmp v
  have hdelivers_test (env : Nat → BitVec 64) (m : BitVec 64 × List Nat) (n₀ : Nat)
      (h : Delivers env m n₀ v g) := h.test
  have hcan := can_eq hv
  rw [gvtst_test, hv, gvtst_cmp]
  rw [hv] at hdelivers_test
  generalize v.jtrue = jtrue at *
  generalize v.jfalse = jfalse at *
  have hperm : PendingFrom n g.code ((if inv then jfalse else jtrue) ++ t ++
      ((if inv then jtrue else jfalse) ++ rest)) := by
    refine hpending.perm (List.perm_iff_count.mpr fun p => ?_)
    cases inv <;> simp only [List.count_append, Bool.false_eq_true, if_false, if_true] <;> omega
  obtain ⟨hemits₁, hpending₁, hsub, hempty, hoff₁, hjump⟩ :=
    @jump_if_live _ _ inv op a b _ _ hlive hn hperm
  generalize jump_if inv op a b ((if inv then jfalse else jtrue) ++ t) g = r at *
  obtain ⟨t', g₁⟩ := r
  have hperm₁ : PendingFrom n g₁.code ((if inv then jtrue else jfalse) ++ (t' ++ rest)) := by
    refine hpending₁.perm (List.perm_iff_count.mpr fun p => ?_)
    simp only [List.count_append]
    omega
  obtain ⟨hemits₂, hlabel⟩ := gsym_spec (u := if inv then jtrue else jfalse)
    fun p hp => pending_of_mem hperm₁ (List.mem_append_left _ hp)
  refine ⟨hemits₁.trans hemits₂, pending_gsym hperm₁,
    fun p hp => hsub p (List.mem_append_right _ hp), ?_, ?_, ?_⟩
  · simp only at hempty ⊢
    rw [hempty, isEmpty_append, hcan]
    cases inv <;> simp only [Bool.false_eq_true, if_false, if_true, Bool.not_true, Bool.not_false]
    · cases List.isEmpty jtrue <;> cases List.isEmpty t <;> simp [bne]
    · cases List.isEmpty jfalse <;> cases List.isEmpty t <;> simp [bne]
  · simp only at hoff₁ ⊢
    rw [off_gsym, hoff₁, hcan]
    cases inv <;> simp only [Bool.false_eq_true, if_false, if_true, Bool.not_true, Bool.not_false]
    · cases List.isEmpty jfalse <;> simp [bne]
    · cases List.isEmpty jtrue <;> simp [bne]
  · intro env m n₀ hdelivers C hC L hL regs trace
    have hC₁ := hemits₂.completes hC
    have hch (p : Nat) (hp : p ∈ if inv then jfalse else jtrue) : C p = some (.jump (some L)) :=
      hL p (hsub p (List.mem_append_left _ hp))
    have hu := hlabel hC
    have hne_of_ch (hne : (if inv then jfalse else jtrue) ≠ []) : t' ≠ [] := by
      obtain ⟨p, hp⟩ := List.exists_mem_of_ne_nil _ hne
      exact List.ne_nil_of_mem (hsub p (List.mem_append_left _ hp))
    have hon_of_u (hne : (if inv then jtrue else jfalse) ≠ []) :
        (gsym (if inv then jtrue else jfalse) g₁).off = false := by
      rw [off_gsym, List.isEmpty_eq_false_iff.mpr hne, Bool.false_and]
    have hout := hdelivers_test env m n₀ hdelivers C (hemits₁.completes hC₁) (if inv then g₁.ind else L)
      (if inv then L else g₁.ind) (fun p hp => ?_) (fun p hp => ?_) regs trace
    · obtain ⟨regs', hout⟩ := hout
      refine ⟨regs', ?_⟩
      have hval : (m.1 != 0#64) = ((truth m).1 != 0#64) := (boolWord_ne_zero _).symm
      rw [hval, ind_gsym]
      obtain ⟨hval', hne, hruns⟩ | ⟨hval', hne, hruns⟩ | ⟨-, hval', hruns⟩ := hout
      · rw [hval']
        cases inv
        · exact ⟨hne_of_ch hne, hruns⟩
        · exact ⟨hon_of_u hne, hruns⟩
      · rw [hval']
        cases inv
        · exact ⟨hon_of_u hne, hruns⟩
        · exact ⟨hne_of_ch hne, hruns⟩
      · rw [hval', boolWord_ne_zero]
        have hjump' := hjump env C hC₁ L hL regs' (trace ++ m.2)
        split
        · rename_i hholds
          rw [if_pos hholds] at hjump'
          exact ⟨hjump'.1, hruns.1.trans hjump'.2, hruns.2⟩
        · rename_i hholds
          rw [if_neg hholds] at hjump'
          refine ⟨?_, hruns.1.trans hjump'.2, hruns.2⟩
          rw [off_gsym, hjump'.1, Bool.and_false]
    · cases inv
      · exact hch p hp
      · exact hu p hp
    · cases inv
      · exact hu p hp
      · exact hch p hp

/-- `gvtst`, which adds to the chain `t` the jumps of the value and labels the others. -/
theorem gvtst_spec (hnocode : g.nocode = 0) (hcmp : g.off = true → v.isCmp = true) (hn : n ≤ g.ind)
    (hpending : PendingFrom n g.code (t ++ (v.jtrue ++ (v.jfalse ++ rest)))) :
    Emits n g (gvtst inv t v g).2 ∧
      PendingFrom n (gvtst inv t v g).2.code ((gvtst inv t v g).1 ++ rest) ∧
      (∀ p ∈ t, p ∈ (gvtst inv t v g).1) ∧
      ((gvtst inv t v g).1.isEmpty = (t.isEmpty && !v.shape.can (!inv) (!g.off))) ∧
      (gvtst inv t v g).2.off = !v.shape.can inv (!g.off) ∧
      ∀ env m n₀, Delivers env m n₀ v g →
        Tests env m n₀ inv (gvtst inv t v g).1 (gvtst inv t v g).2 := by
  cases hoff : g.off with
  | false => exact gvtst_on (live_iff.mpr ⟨hnocode, hoff⟩) hn hpending
  | true => exact gvtst_off hoff (hcmp hoff) hpending

/-- After a jump of the true chain alone, a jump for false values is not needed. -/
theorem gvtst_spec_true : Tests (fun _ => 0#64) (1#64, []) 0 true [] ⟨[.jump (some 1)], 0, false⟩ := by
  have hpending : PendingFrom 0 [Item.jump (I := Instr) none] [0] := (PendingFrom.nil []).append_pending (Nat.le_refl 0)
  refine (gvtst_spec (g := ⟨[.jump none], 0, true⟩) (v := .cmp (.flag true) 0 none [0] []) rfl (fun _ => rfl)
    (Nat.zero_le _) hpending).2.2.2.2.2 _ _ _ ?_
  intro C _ LT LF hjtrue _ regs trace
  have hjump : Reach (fun _ => 0#64) C ⟨0, regs, trace⟩ ⟨LT, regs, trace⟩ := step_jump (hjtrue 0 List.mem_cons_self)
  refine ⟨regs, Or.inl ⟨rfl, List.cons_ne_nil _ _, ?_, fun _ _ => rfl⟩⟩
  rw [List.append_nil]
  exact hjump

end

end tcc.cond
