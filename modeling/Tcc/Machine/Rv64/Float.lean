import Tcc.Machine.Rv64.Exec

namespace machine.rv64

/-- A hart with the registers of the D extension. -/
structure FHart extends Hart where
  f : BitVec 5 → BitVec 64

def FHart.setF (s : FHart) (r : BitVec 5) (v : BitVec 64) : FHart :=
  { s with f := Function.update s.f r v }

def FHart.withHart (s : FHart) (h : Hart) : FHart := { s with toHart := h }

@[simp] theorem FHart.withHart_f (s : FHart) (h : Hart) : (s.withHart h).f = s.f := rfl

@[simp] theorem FHart.withHart_toHart (s : FHart) (h : Hart) : (s.withHart h).toHart = h := rfl

/-- A single-precision value in a register of twice the width. -/
def box (v : BitVec 32) : BitVec 64 := BitVec.allOnes 32 ++ v

/-- The single-precision value of a register; what is not boxed counts as the NaN. -/
def unbox (v : BitVec 64) : BitVec 32 :=
  if v >>> 32 = (BitVec.allOnes 32).setWidth 64 then v.setWidth 32 else 0x7fc00000#32

/-- The magnitude of `a` with the sign of `b`. -/
def sgnj {w : Nat} (a b : BitVec w) : BitVec w :=
  (a &&& ~~~BitVec.intMin w) ||| (b &&& BitVec.intMin w)

/-- The floating-point loads (`LOAD-FP`). -/
def floatValue (f3 : BitVec 3) (mem : BitVec 64 → BitVec 8) (addr : BitVec 64) :
    Option (BitVec 64) :=
  match f3.toNat with
  | 2 => some (box ((loadLE mem addr 4).setWidth 32))
  | 3 => some (loadLE mem addr 8)
  | _ => none

/-- Moves within the floating-point registers (`OP-FP`). -/
def floatMove (f7 : BitVec 7) (f3 : BitVec 3) (a b : BitVec 64) : Option (BitVec 64) :=
  match f7.toNat, f3.toNat with
  | 0x10, 0 => some (box (sgnj (unbox a) (unbox b)))
  | 0x11, 0 => some (sgnj a b)
  | _, _ => none

/-- Moves to the integer registers, `fmv.x.w` and `fmv.x.d`. -/
def moveToInt (f7 : BitVec 7) (f3 : BitVec 3) (r2 : BitVec 5) (a : BitVec 64) : Option (BitVec 64) :=
  match f7.toNat, f3.toNat, r2.toNat with
  | 0x70, 0, 0 => some (sext32 a)
  | 0x71, 0, 0 => some a
  | _, _, _ => none

/-- Moves from the integer registers, `fmv.w.x` and `fmv.d.x`. -/
def moveToFloat (f7 : BitVec 7) (f3 : BitVec 3) (r2 : BitVec 5) (a : BitVec 64) : Option (BitVec 64) :=
  match f7.toNat, f3.toNat, r2.toNat with
  | 0x78, 0, 0 => some (box (a.setWidth 32))
  | 0x79, 0, 0 => some a
  | _, _, _ => none

/-- The moves of the major opcode `OP-FP`. -/
def execMove (w : Word) (s : FHart) : Option FHart :=
  match floatMove (funct7 w) (funct3 w) (s.f (rs1 w)) (s.f (rs2 w)),
    moveToInt (funct7 w) (funct3 w) (rs2 w) (s.f (rs1 w)),
    moveToFloat (funct7 w) (funct3 w) (rs2 w) (s.get (rs1 w)) with
  | some v, _, _ => some ((s.setF (rd w) v).withHart s.next)
  | none, some v, _ => some (s.withHart (s.set (rd w) v).next)
  | none, none, some v => some ((s.setF (rd w) v).withHart s.next)
  | none, none, none => none

/-- One instruction of RV64IM, or a load, a store or a move of the D extension. -/
def execF (w : Word) (s : FHart) : Option FHart :=
  match (opcode w).toNat with
  | 0x07 => (floatValue (funct3 w) s.mem (s.get (rs1 w) + immI w)).map
      fun v => (s.setF (rd w) v).withHart s.next
  | 0x27 =>
    if funct3 w = 2#3 ∨ funct3 w = 3#3 then
      some (s.withHart { s.toHart with
        mem := storeLE s.mem (s.get (rs1 w) + immS w) (s.f (rs2 w)) (2 ^ (funct3 w).toNat) }.next)
    else none
  | 0x53 => execMove w s
  | _ => (exec w s.toHart).map s.withHart

def runF : List Word → FHart → Option FHart
  | [], s => some s
  | w :: ws, s => (execF w s).bind (runF ws)

@[simp] theorem runF_nil (s : FHart) : runF [] s = some s := rfl

theorem runF_cons (w : Word) (ws : List Word) (s : FHart) :
    runF (w :: ws) s = (execF w s).bind (runF ws) := rfl

theorem runF_append (ws vs : List Word) (s : FHart) :
    runF (ws ++ vs) s = (runF ws s).bind (runF vs) := by
  induction ws generalizing s with
  | nil => rfl
  | cons w ws ih =>
    simp only [List.cons_append, runF_cons]
    cases execF w s with
    | none => rfl
    | some s' => exact ih s'

/-- The instructions of the integer part work as before. -/
theorem execF_of_exec {w : Word} {s : FHart} {h : Hart} (hexec : exec w s.toHart = some h) :
    execF w s = some (s.withHart h) := by
  unfold execF
  split
  · rename_i hopc
    simp [exec, hopc] at hexec
  · rename_i hopc
    simp [exec, hopc] at hexec
  · rename_i hopc
    simp [exec, hopc] at hexec
  · rw [hexec, Option.map_some]

theorem runF_of_run {ws : List Word} {s : FHart} {h : Hart} (hrun : run ws s.toHart = some h) :
    runF ws s = some (s.withHart h) := by
  induction ws generalizing s with
  | nil =>
    cases hrun
    rfl
  | cons w ws ih =>
    rw [run_cons, Option.bind_eq_some_iff] at hrun
    obtain ⟨h₁, hexec, hrest⟩ := hrun
    rw [runF_cons, execF_of_exec hexec, Option.bind_some]
    exact ih (s := s.withHart h₁) hrest

/-- A register of either file. -/
inductive RegName where
  | x (r : BitVec 5)
  | f (r : BitVec 5)
  deriving DecidableEq, Repr

def FHart.read (s : FHart) : RegName → BitVec 64
  | .x r => s.get r
  | .f r => s.f r

/-- The code runs and changes no register outside a set. -/
def ChangesOnly (rs : Set RegName) (ws : List Word) : Prop :=
  ∀ s, ∃ s', runF ws s = some s' ∧ ∀ q, q ∉ rs → s'.read q = s.read q

theorem changesOnly_nil (rs : Set RegName) : ChangesOnly rs [] := fun s => ⟨s, rfl, fun _ _ => rfl⟩

theorem ChangesOnly.append {rs : Set RegName} {ws vs : List Word} (hws : ChangesOnly rs ws)
    (hvs : ChangesOnly rs vs) : ChangesOnly rs (ws ++ vs) := by
  intro s
  obtain ⟨s₁, hrun₁, hkeep₁⟩ := hws s
  obtain ⟨s₂, hrun₂, hkeep₂⟩ := hvs s₁
  refine ⟨s₂, ?_, fun q hq => (hkeep₂ q hq).trans (hkeep₁ q hq)⟩
  rw [runF_append, hrun₁, Option.bind_some, hrun₂]

theorem ChangesOnly.mono {rs rs' : Set RegName} {ws : List Word} (hws : ChangesOnly rs ws)
    (h : rs ⊆ rs') : ChangesOnly rs' ws := by
  intro s
  obtain ⟨s', hrun, hkeep⟩ := hws s
  exact ⟨s', hrun, fun q hq => hkeep q (fun hmem => hq (h hmem))⟩

/-- Code of the integer part that sets one register. -/
theorem WritesOnly.changesOnly {r : BitVec 5} {ws : List Word} (h : WritesOnly r ws) :
    ChangesOnly {.x r} ws := by
  intro s
  obtain ⟨h', hrun, hkeep⟩ := h s.toHart
  refine ⟨_, runF_of_run hrun, fun q hq => ?_⟩
  cases q with
  | x q => exact hkeep q (fun heq => hq (by rw [heq]; exact Set.mem_singleton _))
  | f q => rfl

end machine.rv64
