import Mathlib.Data.Nat.Basic
import Mathlib.Data.Option.Basic
import Mathlib.Order.Basic
import Tcc.Pp.Macro

/-! What `#pragma pop_macro` restores. -/

namespace tcc.pp.macros

/-- What a frame restores. -/
def restored (st : State) (s : Nat) : Option Definition :=
  (st.define_stack[s]?).bind fun sym => if sym.d.isSome then some sym.definition else none

/-- The frames of a name among the first symbols, from the top. -/
def frames (st : State) (v : Ident) : Nat → List (Option Definition)
  | 0 => []
  | n + 1 => if boundary st v n then restored st n :: frames st v n else frames st v n

attribute [local simp] frames in
/-- Frames are counted below a symbol above which there is no boundary. -/
theorem frames_eq_of_above {st : State} {v : Ident} {a n : Nat} (hle : a ≤ n)
    (habove : ∀ j, a ≤ j → j < n → boundary st v j = false) : frames st v n = frames st v a := by
  induction n with
  | zero =>
    have ha : a = 0 := by omega
    rw [ha]
  | succ n ih =>
    by_cases htop : a = n + 1
    · rw [htop]
    · rw [frames, habove n (by omega) (by omega)]
      exact ih (by omega) fun j hlo hhi => habove j hlo (by omega)

attribute [local simp] restored in
theorem frames_congr {st st' : State} {v : Ident} {n : Nat}
    (hboundary : ∀ j < n, boundary st' v j = boundary st v j)
    (hrestored : ∀ j < n, boundary st v j = true → restored st' j = restored st j) :
    frames st' v n = frames st v n := by
  induction n with
  | zero => rfl
  | succ n ih =>
    have hrest := ih (fun j hj => hboundary j (by omega)) fun j hj => hrestored j (by omega)
    rw [frames, frames, hboundary n (by omega), hrest]
    by_cases htop : boundary st v n = true
    · rw [if_pos htop, if_pos htop, hrestored n (by omega) htop]
    · rw [if_neg htop, if_neg htop]

theorem find_boundary_eq_some {st : State} {v : Ident} {n s : Nat}
    (hfind : find_boundary st v n = some s) :
    s < n ∧ boundary st v s = true ∧ ∀ j, s < j → j < n → boundary st v j = false := by
  induction n with
  | zero => cases hfind
  | succ n ih =>
    rw [find_boundary] at hfind
    by_cases htop : boundary st v n = true
    · rw [if_pos htop] at hfind
      cases hfind
      exact ⟨by omega, htop, fun j hlo hhi => by omega⟩
    · rw [if_neg htop] at hfind
      obtain ⟨hlt, hboundary, habove⟩ := ih hfind
      refine ⟨by omega, hboundary, ?_⟩
      intro j hlo hhi
      by_cases hj : j = n
      · rw [hj]
        exact Bool.eq_false_iff.mpr htop
      · exact habove j hlo (by omega)

theorem find_boundary_eq_none {st : State} {v : Ident} {n : Nat}
    (hfind : find_boundary st v n = none) : frames st v n = [] := by
  induction n with
  | zero => rfl
  | succ n ih =>
    rw [find_boundary] at hfind
    by_cases htop : boundary st v n = true
    · rw [if_pos htop] at hfind
      cases hfind
    · rw [if_neg htop] at hfind
      rw [frames, if_neg htop, ih hfind]

/-- What the symbols of a name say of its definition and its frames. -/
structure Tracks (v : Ident) (st : State) (saved : Saved) : Prop where
  current : definition st v = saved.current
  stack : frames st v st.define_stack.length = saved.stack
  named : ∀ s, define_find st v = some s → ∃ sym, st.define_stack[s]? = some sym ∧ sym.v = v
  above : ∀ s, define_find st v = some s → ∀ j, boundary st v j = true → j ≤ s

theorem boundary_lt {st : State} {v : Ident} {s : Nat} (hboundary : boundary st v s = true) :
    s < st.define_stack.length := by
  by_contra hnot
  rw [boundary, List.getElem?_eq_none (by omega)] at hboundary
  cases hboundary

section push

variable (st : State) (w macro_type : Nat) (d : Option (List Int)) (next : List Param) (v : Ident)

theorem getElem?_sym_push2_of_lt {s : Nat} (hlt : s < st.define_stack.length) :
    (st.sym_push2 w macro_type d next).define_stack[s]? = st.define_stack[s]? :=
  List.getElem?_append_left hlt

theorem getElem?_sym_push2_self :
    (st.sym_push2 w macro_type d next).define_stack[st.define_stack.length]? =
      some ⟨w, macro_type, d, next, none⟩ := by
  rw [State.sym_push2, List.getElem?_concat_length]

theorem boundary_sym_push2 (s : Nat) :
    boundary (st.sym_push2 w macro_type d next) v s = boundary st v s := by
  by_cases hlt : s < st.define_stack.length
  · rw [boundary, boundary, getElem?_sym_push2_of_lt st w macro_type d next hlt]
  · have hnone : boundary st v s = false := by
      by_contra hnot
      exact hlt (boundary_lt (Bool.not_eq_false _ ▸ hnot))
    rw [hnone]
    by_cases htop : s = st.define_stack.length
    · rw [boundary, htop, getElem?_sym_push2_self]
      simp
    · rw [boundary, List.getElem?_eq_none]
      rw [State.sym_push2, List.length_append, List.length_singleton]
      omega

/-- A new symbol is no frame. -/
theorem frames_sym_push2 :
    frames (st.sym_push2 w macro_type d next) v (st.sym_push2 w macro_type d next).define_stack.length =
      frames st v st.define_stack.length := by
  have hlength : (st.sym_push2 w macro_type d next).define_stack.length = st.define_stack.length + 1 := by
    rw [State.sym_push2, List.length_append, List.length_singleton]
  rw [hlength, frames_eq_of_above (a := st.define_stack.length) (by omega)]
  · apply frames_congr
    · exact fun j _ => boundary_sym_push2 st w macro_type d next v j
    · intro j hj _
      rw [restored, restored, getElem?_sym_push2_of_lt st w macro_type d next hj]
  · intro j hlo _
    rw [boundary_sym_push2]
    by_contra hnot
    have := boundary_lt (Bool.not_eq_false _ ▸ hnot)
    omega

end push

/-- A symbol that is pushed for no name, or for another one, changes nothing for a name. -/
theorem Tracks.sym_push2 {v : Ident} {st : State} {saved : Saved} (htracks : Tracks v st saved)
    (w macro_type : Nat) (d : Option (List Int)) (next : List Param) :
    Tracks v (st.sym_push2 w macro_type d next) saved := by
  have hkept : ∀ s, define_find st v = some s →
      (st.sym_push2 w macro_type d next).define_stack[s]? = st.define_stack[s]? := by
    intro s hfind
    obtain ⟨sym, hsym, -⟩ := htracks.named s hfind
    exact getElem?_sym_push2_of_lt st w macro_type d next (List.getElem?_eq_some_iff.mp hsym).1
  refine ⟨?_, ?_, ?_, ?_⟩
  · rw [← htracks.current]
    change ((define_find st v).bind fun s =>
      ((st.sym_push2 w macro_type d next).define_stack[s]?).map Sym.definition) = definition st v
    rw [definition]
    cases hfind : define_find st v with
    | none => rfl
    | some s =>
      simp only [Option.bind_some]
      rw [hkept s hfind]
  · rw [frames_sym_push2, htracks.stack]
  · intro s hfind
    rw [hkept s hfind]
    exact htracks.named s hfind
  · intro s hfind j hj
    rw [boundary_sym_push2] at hj
    exact htracks.above s hfind j hj

theorem Tracks.push_params {v : Ident} {st : State} {saved : Saved} (htracks : Tracks v st saved)
    (params : List Param) : Tracks v (push_params st params) saved := by
  induction params generalizing st with
  | nil => exact htracks
  | cons param rest ih => exact ih (htracks.sym_push2 _ _ _ _)

theorem frames_define (st : State) (w : Ident) (s : Option Nat) (v : Ident) (n : Nat) :
    frames (st.define w s) v n = frames st v n :=
  frames_congr (fun _ _ => rfl) (fun _ _ _ => rfl)

theorem define_find_define_self (st : State) (v : Ident) (s : Option Nat) :
    define_find (st.define v s) v = s := by
  simp only [define_find, State.define, Function.update_self]

theorem define_find_define_of_ne (st : State) {v w : Ident} (hne : w ≠ v) (s : Option Nat) :
    define_find (st.define w s) v = define_find st v := by
  simp only [define_find, State.define, Function.update_of_ne (Ne.symm hne)]

/-- The definition of another name. -/
theorem Tracks.define_of_ne {v w : Ident} {st : State} {saved : Saved} (htracks : Tracks v st saved)
    (hne : w ≠ v) (s : Option Nat) : Tracks v (st.define w s) saved := by
  have hfind := define_find_define_of_ne st hne s
  refine ⟨?_, ?_, ?_, ?_⟩
  · rw [definition, hfind]
    exact htracks.current
  · rw [frames_define]
    exact htracks.stack
  · rw [hfind]
    exact htracks.named
  · rw [hfind]
    exact htracks.above

/-- A name that loses its definition. -/
theorem Tracks.undefine {v : Ident} {st : State} {saved : Saved} (htracks : Tracks v st saved) :
    Tracks v (st.define v none) { saved with current := none } := by
  have hfind := define_find_define_self st v none
  refine ⟨?_, ?_, ?_, ?_⟩
  · rw [definition, hfind]
    rfl
  · rw [frames_define]
    exact htracks.stack
  · rw [hfind]
    intro s hs
    cases hs
  · rw [hfind]
    intro s hs
    cases hs

/-- A name that gets a definition. -/
theorem Tracks.define_push {v : Ident} {st : State} {saved : Saved} (htracks : Tracks v st saved)
    (macro_type : Nat) (str : Option (List Int)) (first_arg : List Param) :
    Tracks v (define_push st v macro_type str first_arg)
      { saved with current := some ⟨macro_type, str, first_arg⟩ } := by
  have hpushed := htracks.sym_push2 v macro_type str first_arg
  have hself := getElem?_sym_push2_self st v macro_type str first_arg
  have hfind := define_find_define_self (st.sym_push2 v macro_type str first_arg) v
    (some st.define_stack.length)
  refine ⟨?_, ?_, ?_, ?_⟩
  · rw [macros.define_push, definition, hfind, Option.bind_some]
    change ((st.sym_push2 v macro_type str first_arg).define_stack[st.define_stack.length]?).map
      Sym.definition = _
    rw [hself]
    rfl
  · rw [macros.define_push, frames_define]
    exact hpushed.stack
  · intro s hs
    rw [macros.define_push, hfind] at hs
    cases hs
    exact ⟨_, hself, rfl⟩
  · intro s hs j hj
    rw [macros.define_push, hfind] at hs
    cases hs
    have hbefore : boundary st v j = true := by
      rw [← boundary_sym_push2 st v macro_type str first_arg v j]
      exact hj
    exact (boundary_lt hbefore).le

theorem Tracks.define_push_of_ne {v w : Ident} {st : State} {saved : Saved} (htracks : Tracks v st saved)
    (hne : w ≠ v) (macro_type : Nat) (str : Option (List Int)) (first_arg : List Param) :
    Tracks v (macros.define_push st w macro_type str first_arg) saved :=
  (htracks.sym_push2 w macro_type str first_arg).define_of_ne hne _

section reference

variable (st : State) (v : Ident) (s : Nat) (ref : Option Nat)

theorem getElem?_set_ref_self :
    (st.set_ref s ref).define_stack[s]? = (st.define_stack[s]?).map fun sym => { sym with ref := ref } := by
  rw [State.set_ref, List.getElem?_modify_eq]
  rfl

theorem getElem?_set_ref_of_ne {j : Nat} (hne : j ≠ s) :
    (st.set_ref s ref).define_stack[j]? = st.define_stack[j]? :=
  List.getElem?_modify_ne _ _ (Ne.symm hne)

theorem restored_set_ref (j : Nat) : restored (st.set_ref s ref) j = restored st j := by
  rw [restored, restored]
  by_cases hj : j = s
  · rw [hj, getElem?_set_ref_self]
    cases st.define_stack[s]? with
    | none => rfl
    | some sym => rfl
  · rw [getElem?_set_ref_of_ne st s ref hj]

theorem boundary_set_ref_of_ne {j : Nat} (hne : j ≠ s) :
    boundary (st.set_ref s ref) v j = boundary st v j := by
  rw [boundary, boundary, getElem?_set_ref_of_ne st s ref hne]

theorem boundary_set_ref_self {sym : Sym} (hsym : st.define_stack[s]? = some sym) :
    boundary (st.set_ref s ref) v s = (sym.v == v.val && ref == some s) := by
  rw [boundary, getElem?_set_ref_self, hsym]
  rfl

theorem definition_set_ref : definition (st.set_ref s ref) v = definition st v := by
  rw [definition, definition]
  change ((define_find st v).bind fun a => ((st.set_ref s ref).define_stack[a]?).map Sym.definition) = _
  cases define_find st v with
  | none => rfl
  | some a =>
    simp only [Option.bind_some]
    by_cases ha : a = s
    · rw [ha, getElem?_set_ref_self]
      cases st.define_stack[s]? with
      | none => rfl
      | some sym => rfl
    · rw [getElem?_set_ref_of_ne st s ref ha]

theorem length_set_ref : (st.set_ref s ref).define_stack.length = st.define_stack.length :=
  List.length_modify _ _ _

end reference

/-- A symbol of another name that becomes a frame, or is one no more. -/
theorem Tracks.set_ref_of_ne {v w : Ident} {st : State} {saved : Saved} (htracks : Tracks v st saved)
    (hne : w ≠ v) {s : Nat} {sym : Sym} (hsym : st.define_stack[s]? = some sym) (hname : sym.v = w.val)
    (ref : Option Nat) : Tracks v (st.set_ref s ref) saved := by
  have hval : (sym.v == v.val) = false := by
    rw [hname]
    exact beq_eq_false_iff_ne.mpr fun heq => hne (Fin.ext heq)
  have hboundary : ∀ j, boundary (st.set_ref s ref) v j = boundary st v j := by
    intro j
    by_cases hj : j = s
    · rw [hj, boundary_set_ref_self st v s ref hsym, boundary, hsym]
      simp only [hval, Bool.false_and]
    · exact boundary_set_ref_of_ne st v s ref hj
  refine ⟨?_, ?_, ?_, ?_⟩
  · rw [definition_set_ref]
    exact htracks.current
  · rw [length_set_ref, frames_congr (fun j _ => hboundary j) fun j _ _ => restored_set_ref st s ref j]
    exact htracks.stack
  · intro a hfind
    obtain ⟨other, hother, hv⟩ := htracks.named a hfind
    by_cases ha : a = s
    · rw [ha, hsym] at hother
      cases hother
      exact absurd (Fin.ext (hname.symm.trans hv)) hne
    · exact ⟨other, by rw [getElem?_set_ref_of_ne st s ref ha, hother], hv⟩
  · intro a hfind j hj
    rw [hboundary j] at hj
    exact htracks.above a hfind j hj

/-- What `sym_define` is set to when a frame is restored. -/
theorem definition_restore {st : State} {s : Nat} {sym : Sym} (v : Ident)
    (hsym : st.define_stack[s]? = some sym) : definition (restore st v s) v = restored st s := by
  rw [restore, definition, define_find_define_self, restored, hsym]
  simp only [Option.bind_some]
  by_cases hsome : sym.d.isSome = true
  · rw [if_pos hsome, if_pos hsome]
    change (st.define_stack[s]?).map Sym.definition = _
    rw [hsym]
    rfl
  · rw [if_neg hsome, if_neg hsome]
    rfl

theorem define_find_restore {st : State} {v : Ident} {s a : Nat}
    (hfind : define_find (restore st v s) v = some a) : a = s := by
  rw [restore, define_find_define_self] at hfind
  obtain ⟨sym, -, hsym⟩ := Option.bind_eq_some_iff.mp hfind
  by_cases hsome : sym.d.isSome = true
  · rw [if_pos hsome] at hsym
    exact (Option.some.inj hsym).symm
  · rw [if_neg hsome] at hsym
    cases hsym

/-- The topmost frame is taken off. -/
theorem Tracks.pop {v : Ident} {st : State} {saved : Saved} (htracks : Tracks v st saved) :
    Tracks v (pragma_pop st v) (saved.step v (.pop v)) := by
  rw [pragma_pop, Saved.step, if_pos rfl]
  cases hfind : find_boundary st v st.define_stack.length with
  | none =>
    have hempty := find_boundary_eq_none hfind
    rw [htracks.stack] at hempty
    rw [hempty]
    exact htracks
  | some s =>
    obtain ⟨hlt, hboundary, habove⟩ := find_boundary_eq_some hfind
    obtain ⟨sym, hsym⟩ : ∃ sym, st.define_stack[s]? = some sym :=
      ⟨_, List.getElem?_eq_getElem hlt⟩
    have hname : sym.v = v.val := by
      rw [boundary, hsym, Bool.and_eq_true, beq_iff_eq] at hboundary
      exact hboundary.1
    have hmark : ∀ j, boundary (st.set_ref s none) v j = true ↔ boundary st v j = true ∧ j ≠ s := by
      intro j
      by_cases hj : j = s
      · rw [hj, boundary_set_ref_self st v s none hsym]
        simp
      · rw [boundary_set_ref_of_ne st v s none hj]
        exact ⟨fun h => ⟨h, hj⟩, fun h => h.1⟩
    have hbelow : ∀ j, boundary (st.set_ref s none) v j = true → j < s := by
      intro j hj
      obtain ⟨hold, hne⟩ := (hmark j).mp hj
      by_contra hnot
      have := habove j (by omega) (boundary_lt hold)
      rw [hold] at this
      cases this
    have hstack : saved.stack = restored st s :: frames st v s := by
      rw [← htracks.stack, frames_eq_of_above (a := s + 1) (by omega)
        fun j hlo hhi => habove j (by omega) hhi, frames, if_pos hboundary]
    have hset : (st.set_ref s none).define_stack[s]? = some { sym with ref := none } := by
      rw [getElem?_set_ref_self, hsym]
      rfl
    simp only [hstack]
    refine ⟨?_, ?_, ?_, ?_⟩
    · rw [definition_restore v hset, restored_set_ref]
    · rw [restore, frames_define]
      change frames (st.set_ref s none) v (st.set_ref s none).define_stack.length = _
      rw [length_set_ref, frames_eq_of_above (a := s) (by omega)]
      · apply frames_congr
        · intro j hj
          exact boundary_set_ref_of_ne st v s none (by omega)
        · exact fun j _ _ => restored_set_ref st s none j
      · intro j hlo _
        by_contra hnot
        have := hbelow j (Bool.not_eq_false _ ▸ hnot)
        omega
    · intro a ha
      rw [define_find_restore ha]
      exact ⟨_, hset, hname⟩
    · intro a ha j hj
      rw [define_find_restore ha]
      exact (hbelow j hj).le

/-- A symbol above all frames becomes one. -/
theorem tracks_boundary {v : Ident} {st : State} {s : Nat} {sym : Sym}
    (hsym : st.define_stack[s]? = some sym) (hname : sym.v = v.val)
    (habove : ∀ j, boundary st v j = true → j < s) :
    Tracks v (restore (st.set_ref s (some s)) v s)
      ⟨restored st s, restored st s :: frames st v st.define_stack.length⟩ := by
  have hlt : s < st.define_stack.length := (List.getElem?_eq_some_iff.mp hsym).1
  have hset : (st.set_ref s (some s)).define_stack[s]? = some { sym with ref := some s } := by
    rw [getElem?_set_ref_self, hsym]
    rfl
  have hself : boundary (st.set_ref s (some s)) v s = true := by
    rw [boundary_set_ref_self st v s (some s) hsym, hname]
    simp
  have hnone : ∀ j, s ≤ j → boundary st v j = false := by
    intro j hj
    by_contra hnot
    have := habove j (Bool.not_eq_false _ ▸ hnot)
    omega
  refine ⟨?_, ?_, ?_, ?_⟩
  · rw [definition_restore v hset, restored_set_ref]
  · rw [restore, frames_define]
    change frames (st.set_ref s (some s)) v (st.set_ref s (some s)).define_stack.length = _
    rw [length_set_ref, frames_eq_of_above (a := s + 1) (by omega), frames, if_pos hself,
      restored_set_ref, frames_eq_of_above (a := s) (n := st.define_stack.length) (by omega)
        fun j hlo _ => hnone j hlo]
    · congr 1
      apply frames_congr
      · intro j hj
        exact boundary_set_ref_of_ne st v s (some s) (by omega)
      · exact fun j _ _ => restored_set_ref st s (some s) j
    · intro j hlo _
      rw [boundary_set_ref_of_ne st v s (some s) (by omega)]
      exact hnone j (by omega)
  · intro a ha
    rw [define_find_restore ha]
    exact ⟨_, hset, hname⟩
  · intro a ha j hj
    rw [define_find_restore ha]
    by_cases hjs : j = s
    · omega
    · change boundary (st.set_ref s (some s)) v j = true at hj
      rw [boundary_set_ref_of_ne st v s (some s) hjs] at hj
      exact (habove j hj).le

/-- A frame is put on. -/
theorem Tracks.push {v : Ident} {st : State} {saved : Saved} (htracks : Tracks v st saved)
    (hframes : Frames v st (.push v)) :
    Tracks v (pragma_push st v) (saved.step v (.push v)) := by
  rw [pragma_push, Saved.step, if_pos rfl, find_or_push]
  cases hfind : define_find st v with
  | some s =>
    obtain ⟨⟨sym, hsym, hsome⟩, hfresh⟩ := hframes rfl s hfind
    obtain ⟨other, hother, hname⟩ := htracks.named s hfind
    rw [hsym] at hother
    cases hother
    have habove : ∀ j, boundary st v j = true → j < s := by
      intro j hj
      have hne : j ≠ s := by
        intro heq
        rw [heq, hfresh] at hj
        cases hj
      have := htracks.above s hfind j hj
      omega
    have hrestored : restored st s = saved.current := by
      rw [← htracks.current, definition, hfind, Option.bind_some, restored, hsym]
      simp only [Option.bind_some, if_pos hsome, Option.map_some]
    have hboundary := tracks_boundary hsym hname habove
    rw [hrestored, htracks.stack] at hboundary
    exact hboundary
  | none =>
    have hself := getElem?_sym_push2_self st v 0 none []
    have hpushed := htracks.define_push 0 none []
    have habove : ∀ j, boundary (macros.define_push st v 0 none []) v j = true → j < st.define_stack.length := by
      intro j hj
      have hbefore : boundary st v j = true := by
        rw [← boundary_sym_push2 st v 0 none [] v j]
        exact hj
      exact boundary_lt hbefore
    have hrestored : restored (macros.define_push st v 0 none []) st.define_stack.length = saved.current := by
      rw [← htracks.current, definition, hfind, restored]
      change ((st.sym_push2 v 0 none []).define_stack[st.define_stack.length]?).bind _ = _
      rw [hself]
      rfl
    have hboundary := @tracks_boundary v (macros.define_push st v 0 none []) _ _ hself rfl habove
    rw [hrestored, hpushed.stack] at hboundary
    exact hboundary

/-- What is done with another name. -/
theorem Saved.step_of_ne {v : Ident} {op : Op} (hne : op.name ≠ v) (saved : Saved) :
    saved.step v op = saved := by
  cases op with
  | builtin w | define w | undef w | push w | pop w => exact if_neg hne

theorem Tracks.push_of_ne {v w : Ident} {st : State} {saved : Saved} (htracks : Tracks v st saved)
    (hne : w ≠ v) (hnamed : ∀ s, define_find st w = some s →
      ∃ sym, st.define_stack[s]? = some sym ∧ sym.v = w) : Tracks v (pragma_push st w) saved := by
  rw [pragma_push, find_or_push]
  cases hfind : define_find st w with
  | some s =>
    obtain ⟨sym, hsym, hname⟩ := hnamed s hfind
    exact (htracks.set_ref_of_ne hne hsym hname _).define_of_ne hne _
  | none =>
    have hself := getElem?_sym_push2_self st w 0 none []
    exact ((htracks.define_push_of_ne hne 0 none []).set_ref_of_ne hne hself rfl _).define_of_ne hne _

theorem Tracks.pop_of_ne {v w : Ident} {st : State} {saved : Saved} (htracks : Tracks v st saved)
    (hne : w ≠ v) : Tracks v (pragma_pop st w) saved := by
  rw [pragma_pop]
  cases hfind : find_boundary st w st.define_stack.length with
  | none => exact htracks
  | some s =>
    obtain ⟨hlt, hboundary, -⟩ := find_boundary_eq_some hfind
    have hsym := List.getElem?_eq_getElem hlt
    rw [boundary, hsym, Bool.and_eq_true, beq_iff_eq] at hboundary
    exact (htracks.set_ref_of_ne hne hsym hboundary.1 _).define_of_ne hne _

/-- The symbol that a name finds has that name. -/
def Named (st : State) : Prop :=
  ∀ w s, define_find st w = some s → ∃ sym, st.define_stack[s]? = some sym ∧ sym.v = Fin.val w

theorem Named.sym_push2 {st : State} (hnamed : Named st) (v macro_type : Nat) (d : Option (List Int))
    (next : List Param) : Named (st.sym_push2 v macro_type d next) := by
  intro w s hfind
  obtain ⟨sym, hsym, hname⟩ := hnamed w s hfind
  refine ⟨sym, ?_, hname⟩
  rw [getElem?_sym_push2_of_lt st v macro_type d next (List.getElem?_eq_some_iff.mp hsym).1, hsym]

theorem Named.define {st : State} (hnamed : Named st) (v : Ident) {s : Option Nat}
    (hs : ∀ a, s = some a → ∃ sym, st.define_stack[a]? = some sym ∧ sym.v = v.val) :
    Named (st.define v s) := by
  intro w a hfind
  by_cases hw : v = w
  · rw [← hw, define_find_define_self] at hfind
    rw [← hw]
    exact hs a hfind
  · rw [define_find_define_of_ne st hw] at hfind
    exact hnamed w a hfind

theorem Named.set_ref {st : State} (hnamed : Named st) (s : Nat) (ref : Option Nat) :
    Named (st.set_ref s ref) := by
  intro w a hfind
  obtain ⟨sym, hsym, hname⟩ := hnamed w a hfind
  by_cases ha : a = s
  · refine ⟨{ sym with ref := ref }, ?_, hname⟩
    rw [ha, getElem?_set_ref_self, ← ha, hsym]
    rfl
  · exact ⟨sym, by rw [getElem?_set_ref_of_ne st s ref ha, hsym], hname⟩

theorem Named.push_params {st : State} (hnamed : Named st) (params : List Param) :
    Named (push_params st params) := by
  induction params generalizing st with
  | nil => exact hnamed
  | cons param rest ih => exact ih (hnamed.sym_push2 _ _ _ _)

theorem Named.define_push {st : State} (hnamed : Named st) (v : Ident) (macro_type : Nat)
    (str : Option (List Int)) (first_arg : List Param) :
    Named (define_push st v macro_type str first_arg) := by
  apply (hnamed.sym_push2 v macro_type str first_arg).define
  intro a ha
  cases ha
  exact ⟨_, getElem?_sym_push2_self st v macro_type str first_arg, rfl⟩

theorem Named.restore {st : State} (hnamed : Named st) {v : Ident} {s : Nat} {sym : Sym}
    (hsym : st.define_stack[s]? = some sym) (hname : sym.v = v.val) : Named (restore st v s) := by
  apply hnamed.define
  intro a ha
  obtain ⟨other, -, hother⟩ := Option.bind_eq_some_iff.mp ha
  by_cases hsome : other.d.isSome = true
  · rw [if_pos hsome] at hother
    cases hother
    exact ⟨sym, hsym, hname⟩
  · rw [if_neg hsome] at hother
    cases hother

theorem parse_undef_eq {st : State} (hnamed : Named st) (v : Ident) :
    parse_undef st v = if define_find st v = none then st else st.define v none := by
  rw [parse_undef]
  cases hfind : define_find st v with
  | none => rfl
  | some s =>
    obtain ⟨sym, hsym, hname⟩ := hnamed v s hfind
    have hident : sym.v < SYM_FIRST_ANOM := by
      rw [hname]
      exact v.isLt
    have hv : (⟨sym.v, hident⟩ : Ident) = v := Fin.ext hname
    simp only [hsym]
    rw [dif_pos hident, hv, if_neg (by simp)]

theorem Named.step {st : State} (hnamed : Named st) (op : Op) : Named (step st op) := by
  cases op with
  | builtin v => exact hnamed.define_push v _ _ _
  | define v macro_type str params => exact (hnamed.push_params params).define_push v _ _ _
  | undef v =>
    change Named (parse_undef st v)
    rw [parse_undef_eq hnamed]
    split
    · exact hnamed
    · exact hnamed.define v (fun a ha => by cases ha)
  | push v =>
    change Named (macros.restore _ v _)
    rw [find_or_push]
    cases hfind : define_find st v with
    | some s =>
      obtain ⟨sym, hsym, hname⟩ := hnamed v s hfind
      have hset : (st.set_ref s (some s)).define_stack[s]? = some { sym with ref := some s } := by
        rw [getElem?_set_ref_self, hsym]
        rfl
      exact (hnamed.set_ref s (some s)).restore hset hname
    | none =>
      have hself := getElem?_sym_push2_self st v 0 none []
      have hset := getElem?_set_ref_self (macros.define_push st v 0 none []) st.define_stack.length
        (some st.define_stack.length)
      exact ((hnamed.define_push v 0 none []).set_ref _ _).restore
        (hset.trans (congrArg (Option.map _) hself)) rfl
  | pop v =>
    change Named (pragma_pop st v)
    rw [pragma_pop]
    cases hfind : find_boundary st v st.define_stack.length with
    | none => exact hnamed
    | some s =>
      obtain ⟨hlt, hboundary, -⟩ := find_boundary_eq_some hfind
      have hsym := List.getElem?_eq_getElem hlt
      rw [boundary, hsym, Bool.and_eq_true, beq_iff_eq] at hboundary
      have hset : (st.set_ref s none).define_stack[s]? = some { st.define_stack[s] with ref := none } := by
        rw [getElem?_set_ref_self, hsym]
        rfl
      exact (hnamed.set_ref s none).restore hset hboundary.1

/-- One operation, on this name or on another one. -/
theorem Tracks.step {v : Ident} {st : State} {saved : Saved} (htracks : Tracks v st saved)
    (hnamed : Named st) {op : Op} (hframes : Frames v st op) :
    Tracks v (step st op) (saved.step v op) := by
  by_cases hv : op.name = v
  · cases op with
    | builtin w =>
      change w = v at hv
      subst hv
      rw [Saved.step, if_pos rfl]
      exact htracks.define_push _ _ _
    | define w macro_type str params =>
      change w = v at hv
      subst hv
      rw [Saved.step, if_pos rfl]
      exact (htracks.push_params params).define_push _ _ _
    | undef w =>
      change w = v at hv
      subst hv
      rw [Saved.step, if_pos rfl]
      change Tracks w (parse_undef st w) _
      rw [parse_undef_eq hnamed]
      by_cases hfind : define_find st w = none
      · have hcurrent : saved.current = none := by
          rw [← htracks.current, definition, hfind]
          rfl
        rw [if_pos hfind, ← hcurrent]
        exact htracks
      · rw [if_neg hfind]
        exact htracks.undefine
    | push w =>
      change w = v at hv
      subst hv
      exact htracks.push hframes
    | pop w =>
      change w = v at hv
      subst hv
      exact htracks.pop
  · rw [Saved.step_of_ne hv]
    cases op with
    | builtin w => exact htracks.define_push_of_ne hv _ _ _
    | define w macro_type str params => exact (htracks.push_params params).define_push_of_ne hv _ _ _
    | undef w =>
      change Tracks v (parse_undef st w) saved
      rw [parse_undef_eq hnamed]
      split
      · exact htracks
      · exact htracks.define_of_ne hv none
    | push w => exact htracks.push_of_ne hv (hnamed w)
    | pop w => exact htracks.pop_of_ne hv

/-- A run keeps the frames of the symbols and those that were saved the same. -/
theorem Tracks.run {v : Ident} {st : State} {saved : Saved} (htracks : Tracks v st saved)
    (hnamed : Named st) {ops : List Op} (hframes : AllFrames v st ops) :
    Tracks v (run st ops) (ops.foldl (Saved.step v) saved) := by
  induction ops generalizing st saved with
  | nil => exact htracks
  | cons op ops ih => exact ih (htracks.step hnamed hframes.1) (hnamed.step op) hframes.2

theorem tracks_init (v : Ident) : Tracks v init ⟨none, []⟩ where
  current := rfl
  stack := rfl
  named := by
    intro s hfind
    cases hfind
  above := by
    intro s hfind
    cases hfind

theorem named_init : Named init := by
  intro w s hfind
  cases hfind

/-- Operations that open and close frames leave those below as they are. -/
theorem Saved.stack_of_depth {v : Ident} {n m : Nat} {ops : List Op} (hdepth : depth v n ops = some m)
    (saved : Saved) (tops : List (Option Definition)) {base : List (Option Definition)} (hstack : saved.stack = tops ++ base)
    (hlength : tops.length = n) :
    ∃ left : List (Option Definition), left.length = m ∧
      (ops.foldl (Saved.step v) saved).stack = left ++ base := by
  induction ops generalizing n saved tops with
  | nil =>
    cases hdepth
    exact ⟨tops, hlength, hstack⟩
  | cons op ops ih =>
    unfold depth at hdepth
    by_cases hpush : op = .push v
    · rw [if_pos hpush] at hdepth
      subst hpush
      apply ih hdepth (saved.step v (.push v)) (saved.current :: tops)
      · rw [Saved.step, if_pos rfl, hstack, List.cons_append]
      · rw [List.length_cons, hlength]
    · rw [if_neg hpush] at hdepth
      by_cases hpop : op = .pop v
      · rw [if_pos hpop] at hdepth
        subst hpop
        cases tops with
        | nil =>
          rw [← hlength, List.length_nil] at hdepth
          cases hdepth
        | cons top tops =>
          rw [← hlength, List.length_cons] at hdepth
          apply ih hdepth (saved.step v (.pop v)) tops _ rfl
          rw [Saved.step, if_pos rfl, hstack]
          rfl
      · rw [if_neg hpop] at hdepth
        apply ih hdepth (saved.step v op) tops _ hlength
        rw [← hstack]
        cases op with
        | builtin w | define w | undef w =>
          rw [Saved.step]
          split <;> rfl
        | push w =>
          exact congrArg Saved.stack (if_neg fun heq => hpush (congrArg Op.push heq))
        | pop w =>
          exact congrArg Saved.stack (if_neg fun heq => hpop (congrArg Op.pop heq))

/-- In a run whose `push_macro`s of a name find it undefined, or defined by tokens and not as the
    boundary of the last frame, each `pop_macro` restores what the name was at the `push_macro` that
    it matches. -/
theorem pop_macro_restores {v : Ident} {before between : List Op} (hdepth : depth v 0 between = some 0)
    (hframes : AllFrames v init (before ++ .push v :: (between ++ [.pop v]))) :
    definition (run init (before ++ .push v :: (between ++ [.pop v]))) v =
      definition (run init before) v := by
  have hbefore : ∀ {st : State} {ops rest : List Op}, AllFrames v st (ops ++ rest) → AllFrames v st ops := by
    intro st ops
    induction ops generalizing st with
    | nil => exact fun _ => trivial
    | cons op ops ih => exact fun hall => ⟨hall.1, ih hall.2⟩
  have hstart := ((tracks_init v).run named_init (hbefore hframes)).current
  have hend := ((tracks_init v).run named_init hframes).current
  rw [hend, hstart, List.foldl_append, List.foldl_cons, List.foldl_append, List.foldl_cons, List.foldl_nil]
  generalize before.foldl (Saved.step v) ⟨none, []⟩ = saved at *
  have hopened : (saved.step v (.push v)).stack = [] ++ (saved.current :: saved.stack) := by
    rw [Saved.step, if_pos rfl, List.nil_append]
  obtain ⟨left, hleft, hstack⟩ := Saved.stack_of_depth hdepth _ _ hopened rfl
  rw [List.length_eq_zero_iff.mp hleft, List.nil_append] at hstack
  generalize between.foldl (Saved.step v) (saved.step v (.push v)) = closing at *
  rw [Saved.step, if_pos rfl, hstack]

/-- A name of the program. -/
def name : Ident := ⟨256, by decide⟩

theorem pop_macro_restores_body :
    definition (run init ([.define name MACRO_OBJ [49] []] ++ .push name ::
      ([.undef name, .push name, .define name MACRO_OBJ [50] [], .pop name] ++
        [.pop name]))) name = definition (run init [.define name MACRO_OBJ [49] []]) name := by
  apply pop_macro_restores
  · decide
  · refine ⟨nofun, ?_, nofun, ?_, nofun, nofun, nofun, trivial⟩
    · intro _ s hfind
      cases hfind
      exact ⟨⟨_, rfl, rfl⟩, by decide⟩
    · intro _ s hfind
      cases hfind

/-- The second of two `push_macro`s of the same definition is not recorded: the outer `pop_macro`
    leaves the last definition. -/
theorem repeated_push_macro_is_lost :
    let before : List Op := [.define name MACRO_OBJ [49] []]
    let between : List Op := [.push name, .define name MACRO_OBJ [50] [],
      .pop name, .define name MACRO_OBJ [51] []]
    depth name 0 between = some 0 ∧
      definition (run init (before ++ .push name :: (between ++ [.pop name]))) name ≠
        definition (run init before) name := by
  decide

end tcc.pp.macros
