import Mathlib.Tactic.Common

/-! Programs that read the tokens of a source one after the other. What such a program does depends on
    the tokens that it has read and on nothing behind them. -/

namespace machine.reader

variable {τ β ι : Type}

/-- What a program does with the tokens that it has read; `none` reads another one. -/
abbrev Reader (τ β : Type) := List τ → Option β

/-- The program ends when these tokens are read, and not before. -/
structure Ends (r : Reader τ β) (p : List τ) (b : β) : Prop where
  ends : r p = some b
  reads : ∀ q t l, p = q ++ t :: l → r q = none

section source

variable (next : ι → τ × ι)

/-- The tokens that come next from a source, and the source behind them. -/
def Gives : ι → List τ → ι → Prop
  | i, [], i' => i' = i
  | i, t :: p, i' => (next i).1 = t ∧ Gives (next i).2 p i'

/-- A program on a source, with the tokens that it has read. -/
def run (r : Reader τ β) : Nat → List τ → ι → Option (β × List τ × ι)
  | 0, _, _ => none
  | turns + 1, p, i =>
    match r p with
    | some b => some (b, p, i)
    | none => run r turns (p ++ [(next i).1]) (next i).2

variable {next} {i i' i'' : ι} {p q : List τ} {r : Reader τ β} {b : β}

theorem Gives.append (hp : Gives next i p i') (hq : Gives next i' q i'') : Gives next i (p ++ q) i'' := by
  induction p generalizing i with
  | nil =>
    obtain rfl : i' = i := hp
    exact hq
  | cons t p ih => exact ⟨hp.1, ih hp.2⟩

theorem gives_append : Gives next i (p ++ q) i'' ↔ ∃ i', Gives next i p i' ∧ Gives next i' q i'' := by
  constructor
  · intro h
    induction p generalizing i with
    | nil => exact ⟨i, rfl, h⟩
    | cons t p ih =>
      obtain ⟨i', hp, hq⟩ := ih h.2
      exact ⟨i', ⟨h.1, hp⟩, hq⟩
  · rintro ⟨i', hp, hq⟩
    exact hp.append hq

/-- One length of tokens is given in one way. -/
theorem Gives.unique (hp : Gives next i p i') (hq : Gives next i q i'') (hlen : p.length = q.length) :
    p = q ∧ i' = i'' := by
  induction p generalizing i q with
  | nil =>
    obtain rfl := List.length_eq_zero_iff.mp hlen.symm
    exact ⟨rfl, Eq.trans hp (Eq.symm hq)⟩
  | cons t p ih =>
    cases q with
    | nil => cases hlen
    | cons u q =>
      obtain ⟨rfl, rfl⟩ := ih hp.2 hq.2 (Nat.succ.inj hlen)
      exact ⟨by rw [← hp.1, ← hq.1], rfl⟩

attribute [local simp] run in
theorem run_spec {turns : Nat} {p' : List τ} (h : run next r turns p i = some (b, p', i')) :
    ∃ q, p' = p ++ q ∧ Gives next i q i' ∧ r p' = some b ∧
      ∀ a t l, q = a ++ t :: l → r (p ++ a) = none := by
  induction turns generalizing p i with
  | zero => cases h
  | succ turns ih =>
    rw [run] at h
    cases hr : r p with
    | some c =>
      rw [hr] at h
      cases h
      refine ⟨[], (List.append_nil _).symm, rfl, hr, ?_⟩
      intro a t l hnil
      simp at hnil
    | none =>
      rw [hr] at h
      obtain ⟨q, hp', hgives, hends, hreads⟩ := ih h
      refine ⟨(next i).1 :: q, ?_, ⟨rfl, hgives⟩, hends, ?_⟩
      · rw [hp', List.append_assoc, List.singleton_append]
      · intro a t l hq
        cases a with
        | nil => rwa [List.append_nil]
        | cons u a =>
          obtain ⟨rfl, htail⟩ := List.cons.inj hq
          have hr' := hreads a t l htail
          rwa [List.append_assoc, List.singleton_append] at hr'

/-- A run has read tokens of the source with which the program ends. -/
theorem run_ends {turns : Nat} (h : run next r turns [] i = some (b, p, i')) :
    Gives next i p i' ∧ Ends r p b := by
  obtain ⟨q, rfl, hgives, hends, hreads⟩ := run_spec h
  exact ⟨hgives, hends, hreads⟩

theorem run_of_gives {turns : Nat} {p₀ : List τ} (hgives : Gives next i p i') (hends : r (p₀ ++ p) = some b)
    (hreads : ∀ q t l, p = q ++ t :: l → r (p₀ ++ q) = none) (hturns : p.length < turns) :
    run next r turns p₀ i = some (b, p₀ ++ p, i') := by
  induction p generalizing i p₀ turns with
  | nil =>
    obtain ⟨turns, rfl⟩ := Nat.exists_eq_succ_of_ne_zero (Nat.ne_of_gt hturns)
    obtain rfl : i' = i := hgives
    rw [List.append_nil] at hends ⊢
    rw [run, hends]
  | cons t p ih =>
    obtain ⟨turns, rfl⟩ := Nat.exists_eq_succ_of_ne_zero (Nat.ne_of_gt (Nat.zero_lt_of_lt hturns))
    obtain ⟨rfl, hgives⟩ := hgives
    have hnone : r p₀ = none := by
      have h := hreads [] _ p rfl
      rwa [List.append_nil] at h
    have hsplit : p₀ ++ (next i).1 :: p = p₀ ++ [(next i).1] ++ p := by
      rw [List.append_assoc, List.singleton_append]
    rw [run, hnone, hsplit]
    apply ih hgives
    · rw [← hsplit]
      exact hends
    · intro q u l hq
      rw [List.append_assoc, List.singleton_append]
      exact hreads ((next i).1 :: q) u l (by rw [hq, List.cons_append])
    · exact Nat.lt_of_succ_lt_succ hturns

/-- On every source that gives these tokens the program ends in the same way. -/
theorem run_of_ends {turns : Nat} (hgives : Gives next i p i') (h : Ends r p b) (hturns : p.length < turns) :
    run next r turns [] i = some (b, p, i') :=
  @run_of_gives _ _ _ _ _ _ _ _ _ _ [] hgives h.ends h.reads hturns

theorem run_mono {turns turns' : Nat} {x : β × List τ × ι} (hle : turns ≤ turns')
    (h : run next r turns p i = some x) : run next r turns' p i = some x := by
  induction turns generalizing p i turns' with
  | zero => cases h
  | succ turns ih =>
    obtain ⟨turns', rfl⟩ := Nat.exists_eq_succ_of_ne_zero
      (Nat.ne_of_gt (Nat.lt_of_lt_of_le (Nat.succ_pos _) hle))
    rw [run] at h ⊢
    cases hr : r p with
    | some c =>
      rw [hr] at h
      exact h
    | none =>
      rw [hr] at h
      exact ih (Nat.le_of_succ_le_succ hle) h

/-- A run has read fewer tokens than it had turns. -/
theorem length_lt_of_run {turns : Nat} {p' : List τ} (h : run next r turns p i = some (b, p', i')) :
    p'.length < p.length + turns := by
  induction turns generalizing p i with
  | zero => cases h
  | succ turns ih =>
    rw [run] at h
    cases hr : r p with
    | some c =>
      rw [hr] at h
      cases h
      omega
    | none =>
      rw [hr] at h
      have hlen := ih h
      rw [List.length_append, List.length_singleton] at hlen
      omega

end source

end machine.reader
