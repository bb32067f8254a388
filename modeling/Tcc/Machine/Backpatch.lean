import Mathlib.Algebra.Order.Ring.Nat
import Mathlib.Data.Nat.SuccPred

/-! Code with forward jumps whose targets are filled in later. -/

namespace machine.backpatch

variable {I : Type}

/-- An instruction, or a jump, which has no target yet while it is in a chain. -/
inductive Item (I : Type) where
  | instr (i : I)
  | jump (target : Option Nat)
  deriving DecidableEq

/-- The addresses of the jumps of a chain, in the order in which they are linked. -/
abbrev Chain := List Nat

/-- The jumps of a chain are given their target. -/
def patch (code : List (Item I)) (t : Chain) (a : Nat) : List (Item I) :=
  t.foldl (fun code p => code.set p (.jump (some a))) code

def Pending (code : List (Item I)) (p : Nat) : Prop := code[p]? = some (.jump none)

@[simp] theorem length_patch (code : List (Item I)) (t : Chain) (a : Nat) :
    (patch code t a).length = code.length := by
  induction t generalizing code with
  | nil => rfl
  | cons p t ih => exact (ih _).trans List.length_set

theorem getElem?_patch_of_notMem {code : List (Item I)} {t : Chain} {a p : Nat} (hp : p ∉ t) :
    (patch code t a)[p]? = code[p]? := by
  induction t generalizing code with
  | nil => rfl
  | cons q t ih =>
    rw [List.mem_cons, not_or] at hp
    exact (ih hp.2).trans (List.getElem?_set_ne fun h => hp.1 h.symm)

theorem getElem?_patch_of_mem {code : List (Item I)} {t : Chain} {a p : Nat} (hp : p ∈ t)
    (hlt : p < code.length) : (patch code t a)[p]? = some (.jump (some a)) := by
  induction t generalizing code with
  | nil => cases hp
  | cons q t ih =>
    by_cases hmem : p ∈ t
    · exact ih hmem (by rwa [List.length_set])
    · obtain rfl | hmem' := List.mem_cons.mp hp
      · exact (getElem?_patch_of_notMem hmem).trans (List.getElem?_set_self hlt)
      · exact absurd hmem' hmem

/-- A finished code: it has all the instructions, and every jump has a target. -/
def Completes (C : Nat → Option (Item I)) (code : List (Item I)) : Prop :=
  ∀ p item, code[p]? = some item →
    (item ≠ .jump none ∧ C p = some item) ∨ (item = .jump none ∧ ∃ a, C p = some (.jump (some a)))

section

variable {C : Nat → Option (Item I)} {code seg : List (Item I)} {t : Chain} {a p : Nat}

theorem Completes.append (h : Completes C (code ++ seg)) : Completes C code := by
  intro p item hp
  refine h p item ?_
  rw [List.getElem?_append_left (List.getElem?_eq_some_iff.mp hp).1]
  exact hp

theorem Completes.instr (h : Completes C code) {i : I} (hp : code[p]? = some (.instr i)) :
    C p = some (.instr i) := by
  obtain ⟨-, hC⟩ | ⟨hitem, -⟩ := h p _ hp
  · exact hC
  · cases hitem

theorem Completes.jump (h : Completes C code) (hp : code[p]? = some (.jump (some a))) :
    C p = some (.jump (some a)) := by
  obtain ⟨-, hC⟩ | ⟨hitem, -⟩ := h p _ hp
  · exact hC
  · cases hitem

/-- A code that completes patched code completes it before the patch, with the
    chain's target in the jumps of the chain. -/
theorem Completes.patch (ht : ∀ p ∈ t, Pending code p) (h : Completes C (patch code t a)) :
    Completes C code ∧ ∀ p ∈ t, C p = some (.jump (some a)) := by
  have hmem (p : Nat) (hp : p ∈ t) : C p = some (.jump (some a)) :=
    h.jump (getElem?_patch_of_mem hp (List.getElem?_eq_some_iff.mp (ht p hp)).1)
  refine ⟨fun p item hp => ?_, hmem⟩
  by_cases hpt : p ∈ t
  · have hitem : item = .jump none := Option.some.inj (hp.symm.trans (ht p hpt))
    exact Or.inr ⟨hitem, a, hmem p hpt⟩
  · exact h p item ((getElem?_patch_of_notMem hpt).trans hp)

end

/-- Every code can be finished, with any target for the jumps that have none. -/
theorem exists_completes (code : List (Item I)) (a : Nat) :
    ∃ C, Completes C code ∧ ∀ p, Pending code p → C p = some (.jump (some a)) := by
  classical
  refine ⟨fun p => (code[p]?).map fun item => if item = .jump none then .jump (some a) else item,
    fun p item hp => ?_, fun p hp => ?_⟩
  · by_cases hitem : item = .jump none
    · exact Or.inr ⟨hitem, a, by simp [hp, hitem]⟩
    · exact Or.inl ⟨hitem, by simp [hp, hitem]⟩
  · rw [Pending] at hp
    simp [hp]

/-- The jumps without a target, from address `n` on, are those of a list, each once. -/
structure PendingFrom (n : Nat) (code : List (Item I)) (l : Chain) : Prop where
  nodup : l.Nodup
  mem_iff : ∀ p, p ∈ l ↔ n ≤ p ∧ Pending code p

/-- Code that has only grown and changed from address `n` on. -/
structure Grows (n : Nat) (code code' : List (Item I)) : Prop where
  length_le : code.length ≤ code'.length
  keep : ∀ p < n, code'[p]? = code[p]?

namespace Grows

variable {n m : Nat} {code code₁ code₂ : List (Item I)}

theorem refl (n : Nat) (code : List (Item I)) : Grows n code code := ⟨le_rfl, fun _ _ => rfl⟩

theorem trans (h₁ : Grows n code code₁) (h₂ : Grows n code₁ code₂) : Grows n code code₂ :=
  ⟨h₁.length_le.trans h₂.length_le, fun p hp => (h₂.keep p hp).trans (h₁.keep p hp)⟩

theorem mono (h : Grows m code code₁) (hnm : n ≤ m) : Grows n code code₁ :=
  ⟨h.length_le, fun p hp => h.keep p (hp.trans_le hnm)⟩

theorem append (hn : n ≤ code.length) (seg : List (Item I)) : Grows n code (code ++ seg) :=
  ⟨by simp, fun _ hp => List.getElem?_append_left (hp.trans_le hn)⟩

theorem patch {t : Chain} (ht : ∀ p ∈ t, n ≤ p) (a : Nat) : Grows n code (patch code t a) :=
  ⟨by simp, fun p hp => getElem?_patch_of_notMem fun hmem => absurd (ht p hmem) (by omega)⟩

end Grows

namespace PendingFrom

variable {n : Nat} {code code' : List (Item I)} {l t : Chain}

theorem nil (code : List (Item I)) : PendingFrom code.length code [] := by
  refine ⟨List.nodup_nil, fun p => ⟨fun h => (List.not_mem_nil h).elim, ?_⟩⟩
  rintro ⟨hp, hpending⟩
  have hlt := (List.getElem?_eq_some_iff.mp hpending).1
  omega

theorem perm (h : PendingFrom n code l) (hl : l.Perm t) : PendingFrom n code t :=
  ⟨hl.nodup_iff.mp h.nodup, fun p => hl.mem_iff.symm.trans (h.mem_iff p)⟩

theorem append_instr (h : PendingFrom n code l) (i : I) : PendingFrom n (code ++ [.instr i]) l := by
  refine ⟨h.nodup, fun p => ?_⟩
  rw [h.mem_iff, Pending, Pending]
  refine and_congr_right fun _ => ?_
  by_cases hlt : p < code.length
  · rw [List.getElem?_append_left hlt]
  · rw [List.getElem?_eq_none (by omega), List.getElem?_append_right (by omega)]
    cases hsub : p - code.length with
    | zero => simp
    | succ k => simp

theorem append_jump (h : PendingFrom n code l) (a : Nat) :
    PendingFrom n (code ++ [.jump (some a)]) l := by
  refine ⟨h.nodup, fun p => ?_⟩
  rw [h.mem_iff, Pending, Pending]
  refine and_congr_right fun _ => ?_
  by_cases hlt : p < code.length
  · rw [List.getElem?_append_left hlt]
  · rw [List.getElem?_eq_none (by omega), List.getElem?_append_right (by omega)]
    cases hsub : p - code.length with
    | zero => simp
    | succ k => simp

/-- A new jump is put in front of the chain. -/
theorem append_pending (h : PendingFrom n code l) (hn : n ≤ code.length) :
    PendingFrom n (code ++ [.jump none]) (code.length :: l) := by
  have hlt (p : Nat) (hp : p ∈ l) : p < code.length :=
    (List.getElem?_eq_some_iff.mp ((h.mem_iff p).mp hp).2).1
  refine ⟨List.nodup_cons.mpr ⟨fun hp => absurd (hlt _ hp) (by omega), h.nodup⟩, fun p => ?_⟩
  rw [List.mem_cons, h.mem_iff, Pending, Pending]
  by_cases hp : p < code.length
  · rw [List.getElem?_append_left hp]
    constructor
    · rintro (rfl | hmem)
      · omega
      · exact hmem
    · exact Or.inr
  · rw [List.getElem?_eq_none (by omega), List.getElem?_append_right (by omega)]
    cases hsub : p - code.length with
    | zero => simp; omega
    | succ k => simp; omega

theorem patch (h : PendingFrom n code (t ++ l)) (a : Nat) : PendingFrom n (patch code t a) l := by
  have hdisjoint := List.nodup_append.mp h.nodup
  refine ⟨hdisjoint.2.1, fun p => ?_⟩
  by_cases hp : p ∈ t
  · have hlt := (List.getElem?_eq_some_iff.mp ((h.mem_iff p).mp (List.mem_append_left l hp)).2).1
    rw [Pending, getElem?_patch_of_mem hp hlt]
    constructor
    · intro hpl
      exact absurd rfl (hdisjoint.2.2 p hp p hpl)
    · rintro ⟨-, hsome⟩
      cases hsome
  · rw [Pending, getElem?_patch_of_notMem hp]
    have := h.mem_iff p
    rw [List.mem_append, or_iff_right hp] at this
    exact this

/-- The chains of two parts of the code. -/
theorem join (h : PendingFrom n code l) (hn : n ≤ code.length)
    (hgrows : Grows code.length code code') (h' : PendingFrom code.length code' t) :
    PendingFrom n code' (l ++ t) := by
  have hlt (p : Nat) (hp : p ∈ l) : p < code.length :=
    (List.getElem?_eq_some_iff.mp ((h.mem_iff p).mp hp).2).1
  refine ⟨?_, fun p => ?_⟩
  · refine List.nodup_append.mpr ⟨h.nodup, h'.nodup, fun p hp q hq heq => ?_⟩
    have := ((h'.mem_iff q).mp hq).1
    have := hlt p hp
    omega
  · rw [List.mem_append, h.mem_iff, h'.mem_iff, Pending, Pending]
    by_cases hp : p < code.length
    · rw [hgrows.keep p hp]
      constructor
      · rintro (h | ⟨h, -⟩)
        · exact h
        · omega
      · exact Or.inl
    · rw [List.getElem?_eq_none (l := code) (by omega)]
      constructor
      · rintro (⟨-, h⟩ | ⟨-, h⟩)
        · cases h
        · exact ⟨by omega, h⟩
      · rintro ⟨-, h⟩
        exact Or.inr ⟨by omega, h⟩

end PendingFrom

end machine.backpatch
