import Tcc.Machine.Rv64.Exec

namespace machine.rv64

/-- The instruction words in memory. -/
abbrev Code := BitVec 64 → Option Word

/-- The words stand one after the other from an address on. -/
def Loaded (code : Code) (start : BitVec 64) (ws : List Word) : Prop :=
  ∀ i w, ws[i]? = some w → code (start + BitVec.ofNat 64 (4 * i)) = some w

/-- A memory whose only instructions are these, from address 0 on. -/
def place (ws : List Word) : Code := fun x => if x.toNat % 4 = 0 then ws[x.toNat / 4]? else none

theorem place_ofNat {ws : List Word} {i : Nat} (hi : 4 * i < 2 ^ 64) :
    place ws (BitVec.ofNat 64 (4 * i)) = ws[i]? := by
  rw [place, BitVec.toNat_ofNat, Nat.mod_eq_of_lt hi, if_pos (by omega),
    Nat.mul_div_cancel_left i (by decide)]

theorem place_loaded {ws : List Word} (hws : 4 * ws.length ≤ 2 ^ 64) : Loaded (place ws) 0#64 ws := by
  intro i w hi
  have hlt := (List.getElem?_eq_some_iff.mp hi).1
  rw [BitVec.zero_add, place_ofNat (by omega), hi]

theorem place_eq_none {ws : List Word} {x : BitVec 64} (hx : 4 * ws.length ≤ x.toNat) :
    place ws x = none := by
  rw [place]
  split
  · exact List.getElem?_eq_none (by omega)
  · rfl

/-- Fetch and execution of one instruction. -/
def step (code : Code) (h : Hart) : Option Hart := (code h.pc).bind fun w => exec w h

def steps (code : Code) : Nat → Hart → Option Hart
  | 0, h => some h
  | k + 1, h => (step code h).bind (steps code k)

/-- Execution until an address is reached for the first time. -/
def runTo (code : Code) (target : BitVec 64) : Nat → Hart → Option Hart
  | 0, h => if h.pc = target then some h else none
  | fuel + 1, h => if h.pc = target then some h else (step code h).bind (runTo code target fuel)

theorem step_of_fetch {code : Code} {h : Hart} {w : Word} (hw : code h.pc = some w) :
    step code h = exec w h := by
  rw [step, hw, Option.bind_some]

attribute [local simp] steps in
theorem steps_add (code : Code) (k l : Nat) (h : Hart) :
    steps code (k + l) h = (steps code k h).bind (steps code l) := by
  induction k generalizing h with
  | zero => rw [Nat.zero_add, steps, Option.bind_some]
  | succ k ih =>
    rw [Nat.succ_add, steps, steps]
    cases step code h with
    | none => rfl
    | some h' => rw [Option.bind_some, Option.bind_some, ih]

attribute [local simp] runTo in
theorem runTo_of_pc {code : Code} {target : BitVec 64} {h : Hart} (hpc : h.pc = target)
    (fuel : Nat) : runTo code target fuel h = some h := by
  cases fuel <;> rw [runTo, if_pos hpc]

theorem runTo_of_step {code : Code} {target : BitVec 64} {h h' : Hart} {fuel : Nat}
    (hpc : h.pc ≠ target) (hstep : step code h = some h') :
    runTo code target (fuel + 1) h = runTo code target fuel h' := by
  rw [runTo, if_neg hpc, hstep, Option.bind_some]

theorem runTo_pc {code : Code} {target : BitVec 64} {h h' : Hart} {fuel : Nat}
    (hrun : runTo code target fuel h = some h') : h'.pc = target := by
  induction fuel generalizing h with
  | zero =>
    rw [runTo, Option.ite_none_right_eq_some] at hrun
    cases hrun.2
    exact hrun.1
  | succ fuel ih =>
    rw [runTo] at hrun
    split at hrun
    · rename_i hpc
      cases hrun
      exact hpc
    · obtain ⟨h₁, -, hrest⟩ := Option.bind_eq_some_iff.mp hrun
      exact ih hrest

/-- A state that is reached does not depend on the fuel. -/
theorem runTo_unique {code : Code} {target : BitVec 64} {h h₁ h₂ : Hart} {m n : Nat}
    (h₁run : runTo code target m h = some h₁) (h₂run : runTo code target n h = some h₂) :
    h₁ = h₂ := by
  induction m generalizing h n with
  | zero =>
    rw [runTo, Option.ite_none_right_eq_some] at h₁run
    rw [runTo_of_pc h₁run.1] at h₂run
    cases h₁run.2
    cases h₂run
    rfl
  | succ m ih =>
    by_cases hpc : h.pc = target
    · rw [runTo_of_pc hpc] at h₁run h₂run
      exact Option.some.inj (h₁run.symm.trans h₂run)
    · cases n with
      | zero =>
        rw [runTo, if_neg hpc] at h₂run
        cases h₂run
      | succ n =>
        rw [runTo, if_neg hpc] at h₁run h₂run
        obtain ⟨h', hstep, hrest⟩ := Option.bind_eq_some_iff.mp h₁run
        rw [hstep, Option.bind_some] at h₂run
        exact ih hrest h₂run

/-- A set of states that is never left and has no state at the target. -/
theorem runTo_none {code : Code} {target : BitVec 64} {stay : Hart → Prop}
    (hstay : ∀ h, stay h → h.pc ≠ target ∧ ∀ h', step code h = some h' → stay h')
    {h : Hart} (hh : stay h) (fuel : Nat) : runTo code target fuel h = none := by
  induction fuel generalizing h with
  | zero => rw [runTo, if_neg (hstay h hh).1]
  | succ fuel ih =>
    rw [runTo, if_neg (hstay h hh).1]
    cases hstep : step code h with
    | none => rfl
    | some h' =>
      rw [Option.bind_some]
      exact ih ((hstay h hh).2 h' hstep)

/-- An instruction after which the next one is executed. -/
def Straight (w : Word) : Prop := ∀ h h', exec w h = some h' → h'.pc = h.pc + 4#64

/-- One instruction of a block that is loaded at the program counter. -/
theorem step_block {code : Code} {w : Word} {ws : List Word} {h h₁ : Hart}
    (hload : Loaded code h.pc (w :: ws)) (hw : Straight w) (hexec : exec w h = some h₁) :
    step code h = some h₁ ∧ Loaded code h₁.pc ws := by
  have hfetch : code h.pc = some w := by
    have := hload 0 w rfl
    rwa [Nat.mul_zero, BitVec.add_zero] at this
  refine ⟨(step_of_fetch hfetch).trans hexec, fun i w' hi => ?_⟩
  rw [hw h h₁ hexec, BitVec.add_assoc]
  have := hload (i + 1) w' hi
  rwa [Nat.mul_succ, Nat.add_comm, BitVec.ofNat_add] at this

theorem steps_block {code : Code} {ws : List Word} {h h' : Hart} (hload : Loaded code h.pc ws)
    (hws : ∀ w ∈ ws, Straight w) (hrun : run ws h = some h') :
    steps code ws.length h = some h' ∧ h'.pc = h.pc + BitVec.ofNat 64 (4 * ws.length) := by
  induction ws generalizing h with
  | nil =>
    cases hrun
    exact ⟨rfl, by simp⟩
  | cons w ws ih =>
    rw [run_cons, Option.bind_eq_some_iff] at hrun
    obtain ⟨h₁, hexec, hrest⟩ := hrun
    have hw := hws w List.mem_cons_self
    obtain ⟨hstep, hload'⟩ := step_block hload hw hexec
    obtain ⟨hsteps, hpc⟩ := ih hload' (fun w' hw' => hws w' (List.mem_cons_of_mem w hw')) hrest
    refine ⟨?_, ?_⟩
    · rw [List.length_cons, steps, hstep, Option.bind_some, hsteps]
    · rw [hpc, hw h h₁ hexec, List.length_cons, Nat.mul_succ, Nat.add_comm, BitVec.ofNat_add,
        BitVec.add_assoc]

theorem Loaded.append {code : Code} {start : BitVec 64} {ws vs : List Word}
    (h : Loaded code start (ws ++ vs)) :
    Loaded code start ws ∧ Loaded code (start + BitVec.ofNat 64 (4 * ws.length)) vs := by
  refine ⟨fun i w hi => h i w ?_, fun i w hi => ?_⟩
  · rw [List.getElem?_append_left (List.getElem?_eq_some_iff.mp hi).1]
    exact hi
  · rw [BitVec.add_assoc, ← BitVec.ofNat_add, ← Nat.mul_add]
    refine h (ws.length + i) w ?_
    rw [List.getElem?_append_right (Nat.le_add_right _ _), Nat.add_sub_cancel_left]
    exact hi

/-- A block whose last instruction may jump. -/
theorem steps_block_last {code : Code} {ws : List Word} {w : Word} {h h' : Hart}
    (hload : Loaded code h.pc (ws ++ [w])) (hws : ∀ w ∈ ws, Straight w)
    (hrun : run (ws ++ [w]) h = some h') : steps code (ws.length + 1) h = some h' := by
  rw [run_append, Option.bind_eq_some_iff] at hrun
  obtain ⟨h₁, hrun₁, hlast⟩ := hrun
  rw [run_cons, Option.bind_eq_some_iff] at hlast
  obtain ⟨h₂, hexec, hnil⟩ := hlast
  cases hnil
  obtain ⟨hload₁, hload₂⟩ := Loaded.append hload
  obtain ⟨hsteps, hpc⟩ := steps_block hload₁ hws hrun₁
  have hfetch : code h₁.pc = some w := by
    have := hload₂ 0 w rfl
    rwa [Nat.mul_zero, BitVec.add_zero, ← hpc] at this
  rw [steps_add, hsteps, Option.bind_some, steps, step_of_fetch hfetch, hexec, Option.bind_some,
    steps]

theorem runTo_block {code : Code} {target : BitVec 64} {ws : List Word} {h h' : Hart}
    (hload : Loaded code h.pc ws) (hws : ∀ w ∈ ws, Straight w)
    (hne : ∀ i < ws.length, h.pc + BitVec.ofNat 64 (4 * i) ≠ target) (hrun : run ws h = some h')
    (fuel : Nat) : runTo code target (ws.length + fuel) h = runTo code target fuel h' := by
  induction ws generalizing h with
  | nil =>
    cases hrun
    rw [List.length_nil, Nat.zero_add]
  | cons w ws ih =>
    rw [run_cons, Option.bind_eq_some_iff] at hrun
    obtain ⟨h₁, hexec, hrest⟩ := hrun
    have hw := hws w List.mem_cons_self
    obtain ⟨hstep, hload'⟩ := step_block hload hw hexec
    have hne' (i : Nat) (hi : i < ws.length) : h₁.pc + BitVec.ofNat 64 (4 * i) ≠ target := by
      rw [hw h h₁ hexec, BitVec.add_assoc, BitVec.add_comm 4#64]
      have := hne (i + 1) (Nat.succ_lt_succ hi)
      rwa [Nat.mul_succ, BitVec.ofNat_add] at this
    have hpc : h.pc ≠ target := by
      have := hne 0 (Nat.succ_pos _)
      rwa [Nat.mul_zero, BitVec.add_zero] at this
    rw [List.length_cons, Nat.succ_add, runTo_of_step hpc hstep]
    exact ih hload' (fun w' hw' => hws w' (List.mem_cons_of_mem w hw')) hne' hrest

theorem runTo_add {code : Code} {target : BitVec 64} {h A : Hart} {fuel : Nat}
    (hrun : runTo code target fuel h = some A) (k : Nat) :
    runTo code target (fuel + k) h = some A := by
  induction fuel generalizing h with
  | zero =>
    rw [runTo, Option.ite_none_right_eq_some] at hrun
    rw [runTo_of_pc hrun.1, hrun.2]
  | succ fuel ih =>
    by_cases hpc : h.pc = target
    · rw [runTo_of_pc hpc] at hrun ⊢
      exact hrun
    · rw [runTo, if_neg hpc, Option.bind_eq_some_iff] at hrun
      obtain ⟨h', hstep, hrest⟩ := hrun
      rw [Nat.succ_add, runTo_of_step hpc hstep]
      exact ih hrest

/-- On its way to the target, a run from `h` gets to `h'`. -/
def Leads (code : Code) (target : BitVec 64) (h h' : Hart) : Prop :=
  ∃ k, ∀ fuel, runTo code target (k + fuel) h = runTo code target fuel h'

namespace Leads

variable {code : Code} {target : BitVec 64} {h h₁ h₂ A : Hart}

theorem trans (h₁₂ : Leads code target h h₁) (h₂₃ : Leads code target h₁ h₂) :
    Leads code target h h₂ := by
  obtain ⟨k, hk⟩ := h₁₂
  obtain ⟨l, hl⟩ := h₂₃
  exact ⟨k + l, fun fuel => by rw [Nat.add_assoc, hk, hl]⟩

theorem step (hpc : h.pc ≠ target) (hstep : rv64.step code h = some h₁) :
    Leads code target h h₁ :=
  ⟨1, fun fuel => by rw [Nat.add_comm, runTo_of_step hpc hstep]⟩

theorem block {ws : List Word} (hload : Loaded code h.pc ws) (hws : ∀ w ∈ ws, Straight w)
    (hne : ∀ i < ws.length, h.pc + BitVec.ofNat 64 (4 * i) ≠ target) (hrun : run ws h = some h₁) :
    Leads code target h h₁ :=
  ⟨ws.length, runTo_block hload hws hne hrun⟩

theorem arrives (hleads : Leads code target h h₁) (hpc : h₁.pc = target) :
    ∃ fuel, runTo code target fuel h = some h₁ := by
  obtain ⟨k, hk⟩ := hleads
  exact ⟨k + 0, by rw [hk, runTo_of_pc hpc]⟩

theorem runTo_eq (hleads : Leads code target h h₁) {fuel : Nat}
    (hrun : runTo code target fuel h = some A) : runTo code target fuel h₁ = some A := by
  obtain ⟨k, hk⟩ := hleads
  rw [← hk, Nat.add_comm]
  exact runTo_add hrun k

theorem stuck (hleads : Leads code target h h₁) (hpc : h₁.pc ≠ target) (hcode : code h₁.pc = none)
    (fuel : Nat) : runTo code target fuel h = none := by
  cases hrun : runTo code target fuel h with
  | none => rfl
  | some A =>
    have hend := hleads.runTo_eq hrun
    cases fuel with
    | zero => rw [runTo, if_neg hpc] at hend; cases hend
    | succ fuel =>
      rw [runTo, if_neg hpc, rv64.step, hcode, Option.bind_none, Option.bind_none] at hend
      cases hend

end Leads

end machine.rv64
