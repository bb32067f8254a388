import Mathlib.Order.Lattice
import Mathlib.Tactic.Common

/-! Conditional inclusion: the directives `#if` to `#endif` in `preprocess`, and the groups that
    `preprocess_skip` leaves out. -/

namespace tcc.pp.conditional

variable {σ : Type}

def IFDEF_STACK_SIZE : Nat := 64

/-- A line of a file. `#ifdef` and `#ifndef` are conditions as well; any other line, whether a
    directive or not, changes the state or is an error, and so may a condition be. -/
inductive Line (σ : Type) where
  | other (act : σ → Option σ)
  | if_ (cond : σ → Option Bool)
  | elif (cond : σ → Option Bool)
  | else_
  | endif

/-- `preprocess_skip`, with the number `a` of conditionals that were opened since: the lines that
    are left, from the directive on that ends the group. -/
def preprocess_skip : Nat → List (Line σ) → Option (List (Line σ))
  | _, [] => none
  | 0, .elif cond :: lines => some (.elif cond :: lines)
  | 0, .else_ :: lines => some (.else_ :: lines)
  | 0, .endif :: lines => some (.endif :: lines)
  | a, .if_ _ :: lines => preprocess_skip (a + 1) lines
  | a + 1, .endif :: lines => preprocess_skip a lines
  | a, _ :: lines => preprocess_skip a lines

/-- One turn of the switch in `preprocess`, for a file whose `ifdef_stack_ptr` is `base`. The flag
    is `c & 1` at `test_skip`, and true where that label is not reached. -/
def directive (base : Nat) (line : Line σ) (ifdef_stack : List Nat) (s : σ) :
    Option (Bool × List Nat × σ) :=
  match line with
  | .other act => (act s).map fun s => (true, ifdef_stack, s)
  | .if_ cond => (cond s).bind fun c =>
    if IFDEF_STACK_SIZE ≤ ifdef_stack.length then none
    else some (c, c.toNat :: ifdef_stack, s)
  | .else_ =>
    match ifdef_stack with
    | [] => none
    | top :: rest =>
      if top &&& 2 ≠ 0 then none
      else some ((top ^^^ 3) &&& 1 == 1, (top ^^^ 3) :: rest, s)
  | .elif cond =>
    match ifdef_stack with
    | [] => none
    | top :: rest =>
      if 1 < top then none
      else if top = 1 then some (false, top :: rest, s)
      else (cond s).map fun c => (c, c.toNat :: rest, s)
  | .endif => if ifdef_stack.length ≤ base then none else some (true, ifdef_stack.tail, s)

theorem preprocess_skip_length {a : Nat} {lines left : List (Line σ)}
    (h : preprocess_skip a lines = some left) : left.length ≤ lines.length := by
  fun_induction preprocess_skip a lines with
  | case1 => cases h
  | case2 | case3 | case4 =>
    cases h
    exact le_rfl
  | case5 a cond lines ih => exact Nat.le_succ_of_le (ih h)
  | case6 a lines ih => exact Nat.le_succ_of_le (ih h)
  | case7 a line lines _ _ _ _ _ ih => exact Nat.le_succ_of_le (ih h)

/-- `preprocess` over the lines of a file, from a stack of conditionals on, up to the end of the
    file, where each of its own conditionals has to be closed. -/
def preprocess (base : Nat) (lines : List (Line σ)) (ifdef_stack : List Nat) (s : σ) : Option σ :=
  match lines with
  | [] => if ifdef_stack.length = base then some s else none
  | line :: lines =>
    match directive base line ifdef_stack s with
    | none => none
    | some (true, ifdef_stack, s) => preprocess base lines ifdef_stack s
    | some (false, ifdef_stack, s) =>
      match _hskip : preprocess_skip 0 lines with
      | none => none
      | some left => preprocess base left ifdef_stack s
termination_by lines.length
decreasing_by
  · exact Nat.lt_succ_self _
  · exact Nat.lt_succ_of_le (preprocess_skip_length _hskip)

mutual

/-- The groups of a file: lines and whole conditionals. -/
inductive Groups (σ : Type) where
  | nil
  | other (act : σ → Option σ) (rest : Groups σ)
  | section_ (cond : σ → Option Bool) (group : Groups σ) (alternatives : Alternatives σ) (rest : Groups σ)

/-- What follows the first group of a conditional. -/
inductive Alternatives (σ : Type) where
  | endif
  | else_ (group : Groups σ)
  | elif (cond : σ → Option Bool) (group : Groups σ) (alternatives : Alternatives σ)

end

mutual

def Groups.lines : Groups σ → List (Line σ)
  | .nil => []
  | .other act rest => .other act :: rest.lines
  | .section_ cond group alternatives rest => .if_ cond :: (group.lines ++ (alternatives.lines ++ rest.lines))

def Alternatives.lines : Alternatives σ → List (Line σ)
  | .endif => [.endif]
  | .else_ group => .else_ :: (group.lines ++ [.endif])
  | .elif cond group alternatives => .elif cond :: (group.lines ++ alternatives.lines)

end

mutual

/-- The number of conditionals that are open at once. -/
def Groups.depth : Groups σ → Nat
  | .nil => 0
  | .other _ rest => rest.depth
  | .section_ _ group alternatives rest => max (max group.depth alternatives.depth + 1) rest.depth

def Alternatives.depth : Alternatives σ → Nat
  | .endif => 0
  | .else_ group => group.depth
  | .elif _ group alternatives => max group.depth alternatives.depth

end

mutual

/-- The meaning of a file: of each conditional the first group whose condition holds, or that of
    `#else`; the conditions after it are not evaluated. -/
def Groups.eval : Groups σ → σ → Option σ
  | .nil, s => some s
  | .other act rest, s => (act s).bind rest.eval
  | .section_ cond group alternatives rest, s => (cond s).bind fun c =>
    (if c then group.eval s else alternatives.eval s).bind rest.eval

def Alternatives.eval : Alternatives σ → σ → Option σ
  | .endif, s => some s
  | .else_ group, s => group.eval s
  | .elif cond group alternatives, s => (cond s).bind fun c =>
    if c then group.eval s else alternatives.eval s

end

mutual

/-- A group is skipped with all that is in it, at any depth. -/
theorem Groups.preprocess_skip (groups : Groups σ) (a : Nat) (rest : List (Line σ)) :
    conditional.preprocess_skip a (groups.lines ++ rest) = conditional.preprocess_skip a rest := by
  cases groups with
  | nil => rfl
  | other act groups =>
    rw [Groups.lines, List.cons_append, conditional.preprocess_skip, groups.preprocess_skip]
    all_goals simp
  | section_ cond group alternatives groups =>
    rw [Groups.lines, List.cons_append, List.append_assoc, List.append_assoc, conditional.preprocess_skip,
      group.preprocess_skip, alternatives.preprocess_skip, groups.preprocess_skip]

/-- The alternatives of an inner conditional are skipped up to its end. -/
theorem Alternatives.preprocess_skip (alternatives : Alternatives σ) (a : Nat) (rest : List (Line σ)) :
    conditional.preprocess_skip (a + 1) (alternatives.lines ++ rest) = conditional.preprocess_skip a rest := by
  cases alternatives with
  | endif => rfl
  | else_ group =>
    rw [Alternatives.lines, List.cons_append, List.append_assoc, conditional.preprocess_skip,
      group.preprocess_skip]
    · rfl
    all_goals simp
  | elif cond group alternatives =>
    rw [Alternatives.lines, List.cons_append, List.append_assoc, conditional.preprocess_skip,
      group.preprocess_skip, alternatives.preprocess_skip]
    all_goals simp

end

/-- A group ends where the alternatives to it start. -/
theorem Alternatives.skipped_to (alternatives : Alternatives σ) (rest : List (Line σ)) :
    conditional.preprocess_skip 0 (alternatives.lines ++ rest) = some (alternatives.lines ++ rest) := by
  cases alternatives <;> rfl

section

variable {base : Nat} {line : Line σ} {lines left : List (Line σ)} {stack stack' : List Nat} {s s' : σ}

theorem preprocess_of_true (h : directive base line stack s = some (true, stack', s')) :
    preprocess base (line :: lines) stack s = preprocess base lines stack' s' := by
  rw [preprocess, h]

theorem preprocess_of_false (h : directive base line stack s = some (false, stack', s'))
    (hskip : preprocess_skip 0 lines = some left) :
    preprocess base (line :: lines) stack s = preprocess base left stack' s' := by
  rw [preprocess, h]
  dsimp only
  split
  · rename_i hnone
    rw [hnone] at hskip
    cases hskip
  · rename_i heq
    rw [heq] at hskip
    cases hskip
    rfl

theorem preprocess_of_none (h : directive base line stack s = none) :
    preprocess base (line :: lines) stack s = none := by
  rw [preprocess, h]

/-- After a group that was taken, the other groups of the conditional are skipped, and their
    conditions are not looked at. -/
theorem Alternatives.taken (alternatives : Alternatives σ) (hbase : base ≤ stack.length) (rest : List (Line σ)) :
    preprocess base (alternatives.lines ++ rest) (1 :: stack) s = preprocess base rest stack s := by
  have hpop (top : Nat) : directive base .endif (top :: stack) s = some (true, stack, s) := by
    rw [directive, if_neg (by rw [List.length_cons]; omega), List.tail_cons]
  match alternatives with
  | .endif => exact preprocess_of_true (hpop 1)
  | .else_ group =>
    have helse : directive base .else_ (1 :: stack) s = some (false, 2 :: stack, s) := rfl
    rw [Alternatives.lines, List.cons_append, List.append_assoc]
    rw [preprocess_of_false helse (group.preprocess_skip 0 _)]
    exact preprocess_of_true (hpop 2)
  | .elif cond group alternatives =>
    have helif : directive base (.elif cond) (1 :: stack) s = some (false, 1 :: stack, s) := rfl
    rw [Alternatives.lines, List.cons_append, List.append_assoc]
    rw [preprocess_of_false helif ((group.preprocess_skip 0 _).trans (alternatives.skipped_to rest))]
    exact alternatives.taken hbase rest

end

section

variable {base : Nat}

mutual

/-- What the groups of a file mean is what is done with them, whatever comes after. -/
theorem Groups.preprocess (groups : Groups σ) {stack : List Nat} (hbase : base ≤ stack.length)
    (hdepth : stack.length + groups.depth ≤ IFDEF_STACK_SIZE) (rest : List (Line σ)) (s : σ) :
    conditional.preprocess base (groups.lines ++ rest) stack s =
      (groups.eval s).bind (conditional.preprocess base rest stack) := by
  match groups with
  | .nil => rfl
  | .other act groups =>
    rw [Groups.lines, List.cons_append, Groups.eval]
    have hother : directive base (.other act) stack s = (act s).map fun s => (true, stack, s) := rfl
    cases hact : act s with
    | none =>
      rw [hact] at hother
      exact preprocess_of_none hother
    | some s' =>
      rw [hact] at hother
      rw [preprocess_of_true hother, Option.bind_some]
      exact groups.preprocess hbase hdepth rest s'
  | .section_ cond group alternatives groups =>
    rw [Groups.depth] at hdepth
    have hgroup : (1 :: stack).length + group.depth ≤ IFDEF_STACK_SIZE := by
      rw [List.length_cons]
      omega
    have halternatives : (0 :: stack).length + alternatives.depth ≤ IFDEF_STACK_SIZE := by
      rw [List.length_cons]
      omega
    have hroom : ¬ IFDEF_STACK_SIZE ≤ stack.length := by omega
    rw [Groups.lines, List.cons_append, List.append_assoc, List.append_assoc, Groups.eval]
    have hif : directive base (.if_ cond) stack s = (cond s).bind fun c => some (c, c.toNat :: stack, s) := by
      rw [directive]
      simp only [if_neg hroom]
    cases hcond : cond s with
    | none =>
      rw [hcond] at hif
      exact preprocess_of_none hif
    | some c =>
      rw [hcond, Option.bind_some] at hif
      rw [Option.bind_some]
      cases c with
      | true =>
        rw [preprocess_of_true hif, Bool.toNat_true, if_pos rfl, Option.bind_assoc,
          group.preprocess (hbase.trans (Nat.le_succ _)) hgroup]
        refine Option.bind_congr fun s' _ => ?_
        rw [alternatives.taken hbase]
        exact groups.preprocess hbase (by omega) rest s'
      | false =>
        rw [preprocess_of_false hif ((group.preprocess_skip 0 _).trans (alternatives.skipped_to _)),
          Bool.toNat_false, if_neg Bool.false_ne_true, Option.bind_assoc,
          alternatives.preprocess hbase halternatives]
        exact Option.bind_congr fun s' _ => groups.preprocess hbase (by omega) rest s'

/-- As long as no group has been taken, the alternatives are tried one after the other. -/
theorem Alternatives.preprocess (alternatives : Alternatives σ) {stack : List Nat} (hbase : base ≤ stack.length)
    (hdepth : (0 :: stack).length + alternatives.depth ≤ IFDEF_STACK_SIZE) (rest : List (Line σ)) (s : σ) :
    conditional.preprocess base (alternatives.lines ++ rest) (0 :: stack) s =
      (alternatives.eval s).bind (conditional.preprocess base rest stack) := by
  have hpop (top : Nat) (s : σ) : directive base .endif (top :: stack) s = some (true, stack, s) := by
    rw [directive, if_neg (by rw [List.length_cons]; omega), List.tail_cons]
  match alternatives with
  | .endif => exact preprocess_of_true (hpop 0 s)
  | .else_ group =>
    rw [Alternatives.depth] at hdepth
    have hgroup : (3 :: stack).length + group.depth ≤ IFDEF_STACK_SIZE := hdepth
    have helse : directive base .else_ (0 :: stack) s = some (true, 3 :: stack, s) := rfl
    rw [Alternatives.lines, List.cons_append, List.append_assoc, preprocess_of_true helse, Alternatives.eval,
      group.preprocess (hbase.trans (Nat.le_succ _)) hgroup]
    exact Option.bind_congr fun s' _ => preprocess_of_true (hpop 3 s')
  | .elif cond group alternatives =>
    rw [Alternatives.depth] at hdepth
    have hgroup : (1 :: stack).length + group.depth ≤ IFDEF_STACK_SIZE := by
      rw [List.length_cons] at hdepth ⊢
      omega
    rw [Alternatives.lines, List.cons_append, List.append_assoc, Alternatives.eval]
    have helif : directive base (.elif cond) (0 :: stack) s = (cond s).map fun c => (c, c.toNat :: stack, s) := rfl
    cases hcond : cond s with
    | none =>
      rw [hcond] at helif
      exact preprocess_of_none helif
    | some c =>
      rw [hcond, Option.map_some] at helif
      rw [Option.bind_some]
      cases c with
      | true =>
        rw [preprocess_of_true helif, Bool.toNat_true, if_pos rfl,
          group.preprocess (hbase.trans (Nat.le_succ _)) hgroup]
        exact Option.bind_congr fun s' _ => alternatives.taken hbase rest
      | false =>
        rw [preprocess_of_false helif ((group.preprocess_skip 0 _).trans (alternatives.skipped_to _)),
          Bool.toNat_false, if_neg Bool.false_ne_true]
        exact alternatives.preprocess hbase (by omega) rest s

end

end

/-- What is skipped need only be balanced: there `#else` may come twice. -/
example : preprocess 0 [.if_ fun _ => some false, .if_ fun _ => some true, .else_, .else_, .endif, .endif] [] () =
    some () := by
  rw [preprocess_of_false rfl rfl, preprocess_of_true rfl, preprocess]
  rfl

def Line.opens : Line σ → Nat
  | .if_ _ => 1
  | _ => 0

def Line.closes : Line σ → Nat
  | .endif => 1
  | _ => 0

def opened : List (Line σ) → Nat
  | [] => 0
  | line :: lines => line.opens + opened lines

def closed : List (Line σ) → Nat
  | [] => 0
  | line :: lines => line.closes + closed lines

@[simp] theorem opened_cons (line : Line σ) (lines : List (Line σ)) :
    opened (line :: lines) = line.opens + opened lines := rfl

@[simp] theorem closed_cons (line : Line σ) (lines : List (Line σ)) :
    closed (line :: lines) = line.closes + closed lines := rfl

section

variable {base a : Nat} {lines left : List (Line σ)} {line : Line σ} {stack stack' : List Nat} {s s' : σ} {c : Bool}

theorem preprocess_skip_balanced (h : preprocess_skip a lines = some left) :
    opened lines + a + closed left = closed lines + opened left := by
  fun_induction preprocess_skip a lines with
  | case1 => cases h
  | case2 | case3 | case4 =>
    cases h
    omega
  | case5 a cond lines ih =>
    have := ih h
    simp only [opened_cons, closed_cons, Line.opens, Line.closes]
    omega
  | case6 a lines ih =>
    have := ih h
    simp only [opened_cons, closed_cons, Line.opens, Line.closes]
    omega
  | case7 a line lines helif helse hendif hif hend ih =>
    have := ih h
    have hopens : line.opens = 0 := by
      cases line with
      | if_ cond => exact (hif cond rfl).elim
      | _ => rfl
    have hcloses : line.closes = 0 := by
      cases line with
      | endif =>
        cases a with
        | zero => exact (hendif rfl rfl).elim
        | succ a => exact (hend a rfl rfl).elim
      | _ => rfl
    rw [opened_cons, closed_cons, hopens, hcloses]
    omega

/-- Only `#if` and `#endif` change the number of open conditionals. -/
theorem directive_balanced (h : directive base line stack s = some (c, stack', s')) (hbase : base ≤ stack.length) :
    stack'.length + line.closes = stack.length + line.opens ∧ base ≤ stack'.length := by
  cases line with
  | other act =>
    obtain ⟨s₁, -, heq⟩ := Option.map_eq_some_iff.mp h
    cases heq
    exact ⟨rfl, hbase⟩
  | if_ cond =>
    obtain ⟨c', -, heq⟩ := Option.bind_eq_some_iff.mp h
    split at heq
    · cases heq
    · cases heq
      exact ⟨rfl, hbase.trans (Nat.le_succ _)⟩
  | elif cond =>
    cases stack with
    | nil => cases h
    | cons top rest =>
      rw [directive] at h
      split at h
      · cases h
      · split at h
        · cases h
          exact ⟨rfl, hbase⟩
        · obtain ⟨c', -, heq⟩ := Option.map_eq_some_iff.mp h
          cases heq
          exact ⟨rfl, hbase⟩
  | else_ =>
    cases stack with
    | nil => cases h
    | cons top rest =>
      rw [directive] at h
      split at h
      · cases h
      · cases h
        exact ⟨rfl, hbase⟩
  | endif =>
    rw [directive] at h
    split at h
    · cases h
    · cases h
      rw [List.length_tail]
      simp only [Line.opens, Line.closes]
      omega

end

end tcc.pp.conditional
