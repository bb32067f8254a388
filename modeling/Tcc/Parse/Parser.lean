import Mathlib.Tactic.Common

namespace parser

/-- The tokens still to be read, and everything else the parser changes. -/
structure State (τ σ : Type) where
  toks : List τ
  gen : σ

variable {τ σ : Type}

/-- The current token, `eof` at the end of the input. -/
def State.tok (eof : τ) (s : State τ σ) : τ := s.toks.headD eof

def State.next (s : State τ σ) : State τ σ := { s with toks := s.toks.tail }

theorem State.next_lt {eof : τ} {s : State τ σ} (h : s.tok eof ≠ eof) :
    s.next.toks.length < s.toks.length := by
  obtain ⟨toks, gen⟩ := s
  cases toks with
  | nil => exact absurd rfl h
  | cons t rest => exact Nat.lt_succ_self _

/-- A parser reads tokens and never puts any back; `none` is an error. -/
@[ext]
structure Parser (τ σ : Type) where
  run : State τ σ → Option (State τ σ)
  le : ∀ s s', run s = some s' → s'.toks.length ≤ s.toks.length

/-- One parser after the other. -/
def Parser.andThen (p q : Parser τ σ) : Parser τ σ where
  run s := (p.run s).bind q.run
  le s s' h := by
    obtain ⟨s₁, h₁, h₂⟩ := Option.bind_eq_some_iff.mp h
    exact Nat.le_trans (q.le s₁ s' h₂) (p.le s s₁ h₁)

/-- The body of a loop is run on the states that pass its test, and reads a token. -/
structure Body (cond : State τ σ → Prop) where
  run : (s : State τ σ) → cond s → Option (State τ σ)
  lt : ∀ s h s', run s h = some s' → s'.toks.length < s.toks.length

variable {cond : State τ σ → Prop} [DecidablePred cond]

def Body.iterate (body : Body cond) (s : State τ σ) : Option (State τ σ) :=
  if h : cond s then
    match hrun : body.run s h with
    | some s' => body.iterate s'
    | none => none
  else some s
termination_by s.toks.length
decreasing_by exact body.lt s h s' hrun

theorem Body.iterate_pos (body : Body cond) {s : State τ σ} (h : cond s) :
    body.iterate s = (body.run s h).bind body.iterate := by
  rw [Body.iterate, dif_pos h]
  split
  · rename_i s' hrun
    rw [hrun, Option.bind_some]
  · rename_i hrun
    rw [hrun, Option.bind_none]

theorem Body.iterate_neg (body : Body cond) {s : State τ σ} (h : ¬cond s) :
    body.iterate s = some s := by
  rw [Body.iterate, dif_neg h]

/-- A loop only ends in a state that fails its test, and puts no token back. -/
theorem Body.iterate_spec (body : Body cond) {s s' : State τ σ} (h : body.iterate s = some s') :
    ¬cond s' ∧ s'.toks.length ≤ s.toks.length := by
  by_cases hcond : cond s
  · rw [body.iterate_pos hcond, Option.bind_eq_some_iff] at h
    obtain ⟨s₁, hrun, hiter⟩ := h
    have hlt := body.lt s hcond s₁ hrun
    have hrest := body.iterate_spec hiter
    exact ⟨hrest.1, Nat.le_trans hrest.2 (Nat.le_of_lt hlt)⟩
  · rw [body.iterate_neg hcond, Option.some.injEq] at h
    subst h
    exact ⟨hcond, Nat.le_refl _⟩
termination_by s.toks.length

/-- `while (cond) body` -/
def Body.loop (body : Body cond) : Parser τ σ where
  run := body.iterate
  le _ _ h := (body.iterate_spec h).2

end parser
