import Mathlib.Data.List.Basic
import Mathlib.Data.List.Induction
import Mathlib.Data.List.Nodup
import Mathlib.Data.List.Perm.Subperm
import Tcc.Parse.Scope

/-! The token array over a run of the parser: it always has the symbols that are in scope. -/

namespace tcc.scope

/-- A list of symbols that are linked by `prev_tok`. -/
def IsChain (syms : Nat → Sym) : Option Nat → List Nat → Prop
  | cur, [] => cur = none
  | cur, s :: l => cur = some s ∧ IsChain syms (syms s).prev_tok l

section chains

variable {syms syms' : Nat → Sym} {cur : Option Nat} {l l' : List Nat} {s g : Nat}

theorem IsChain.head?_eq (h : IsChain syms cur l) : cur = l.head? := by
  cases l with
  | nil => exact h
  | cons s l => exact h.1

theorem IsChain.congr (h : IsChain syms cur l) (hsyms : ∀ s ∈ l, (syms' s).prev_tok = (syms s).prev_tok) :
    IsChain syms' cur l := by
  induction l generalizing cur with
  | nil => exact h
  | cons s l ih =>
    refine ⟨h.1, ?_⟩
    rw [hsyms s List.mem_cons_self]
    exact ih h.2 fun s' hs' => hsyms s' (List.mem_cons_of_mem s hs')

theorem IsChain.of_append (h : IsChain syms cur (l ++ l')) : IsChain syms l'.head? l' := by
  induction l generalizing cur with
  | nil =>
    have hcur := h.head?_eq
    rw [List.nil_append] at hcur h
    rwa [hcur] at h
  | cons s l ih => exact ih h.2

/-- A symbol is put at the end of a chain. -/
theorem IsChain.concat (h : IsChain syms cur l) (hlast : l.getLast? = some s) (hnodup : l.Nodup)
    (hs : (syms' s).prev_tok = some g) (hg : (syms' g).prev_tok = none)
    (hsyms : ∀ t ∈ l, t ≠ s → (syms' t).prev_tok = (syms t).prev_tok) : IsChain syms' cur (l ++ [g]) := by
  induction l generalizing cur with
  | nil => cases hlast
  | cons t l ih =>
    refine ⟨h.1, ?_⟩
    cases l with
    | nil =>
      cases hlast
      exact ⟨hs, hg⟩
    | cons t' l =>
      rw [List.getLast?_cons_cons] at hlast
      have hne : t ≠ s := by
        rintro rfl
        exact (List.nodup_cons.mp hnodup).1 (List.mem_of_getLast? hlast)
      rw [hsyms t List.mem_cons_self hne]
      exact ih h.2 hlast (List.nodup_cons.mp hnodup).2 fun t' ht' => hsyms t' (List.mem_cons_of_mem t ht')

end chains

/-- The lowest symbol of a name among some symbols of the stack: the one that `sym_pop` comes to
    last. -/
def lowest (syms : Nat → Sym) (k : Slot) (seg : List Nat) : Option Nat :=
  (seg.filter fun s => slot (syms s).v = some k).getLast?

theorem lowest_append (syms : Nat → Sym) (k : Slot) (seg seg' : List Nat) :
    lowest syms k (seg ++ seg') = (lowest syms k seg').or (lowest syms k seg) := by
  rw [lowest, List.filter_append, List.getLast?_append]
  rfl

theorem lowest_congr {syms syms' : Nat → Sym} {k : Slot} {seg : List Nat}
    (h : ∀ s ∈ seg, (syms' s).v = (syms s).v) : lowest syms' k seg = lowest syms k seg := by
  rw [lowest, lowest, List.filter_congr fun s hs => by rw [h s hs]]

theorem mem_of_lowest {syms : Nat → Sym} {k : Slot} {seg : List Nat} {s : Nat} (h : lowest syms k seg = some s) :
    s ∈ seg ∧ slot (syms s).v = some k := by
  have := List.mem_filter.mp (List.mem_of_getLast? h)
  exact ⟨this.1, of_decide_eq_true this.2⟩

/-- When some symbols have been popped, the place of a name is as the lowest of them found it. -/
theorem foldl_unlink (st : State) (seg : List Nat) (table : Slot → Option Nat) (k : Slot) :
    seg.foldl st.unlink table k = ((lowest st.syms k seg).map fun s => (st.syms s).prev_tok).getD (table k) := by
  induction seg using List.reverseRecOn with
  | nil => rfl
  | append_singleton seg s ih =>
    rw [List.foldl_append, lowest_append]
    change st.unlink (seg.foldl st.unlink table) s k = _
    rw [State.unlink]
    cases hslot : slot (st.syms s).v with
    | none =>
      have hone : lowest st.syms k [s] = none := by simp [lowest, hslot]
      rw [hone, Option.none_or]
      exact ih
    | some k' =>
      by_cases hk : k' = k
      · have hone : lowest st.syms k [s] = some s := by simp [lowest, hslot, hk]
        rw [hone, hk]
        exact Function.update_self ..
      · have hone : lowest st.syms k [s] = none := by simp [lowest, hslot, hk]
        rw [hone, Option.none_or]
        exact (Function.update_of_ne (Ne.symm hk) ..).trans ih

/-- The stack by scope: each part holds the symbols of its scope that are visible, in their order, and
    leaves each name, when it is popped, as the scopes around it have it. -/
def Restores (syms : Nat → Sym) (file : List Decl) : List (List Nat) → List (List Decl) → Prop
  | [], [] => True
  | seg :: segs, ds :: inner =>
    (ds.map Prod.snd).Sublist seg ∧
      (∀ k s, lowest syms k seg = some s → (syms s).prev_tok = (Scopes.visible ⟨inner, file⟩ k).head?) ∧
      Restores syms file segs inner
  | _, _ => False

/-- What `lstk` is in each of the scopes. -/
def marks : List (List Nat) → List (List Nat)
  | [] => []
  | _ :: segs => segs.flatten :: marks segs

structure Inv (st : State) (A : Scopes) (segs : List (List Nat)) : Prop where
  stack : st.local_stack = segs.flatten
  scopes : st.scopes = marks segs
  bottom : ∀ seg, segs.getLast? = some seg → seg ≠ []
  inside : segs ≠ [] → st.local_scope = max 1 (segs.length - 1)
  outside : segs = [] → st.local_scope = 0
  fresh : ∀ s ∈ st.local_stack, s < st.next
  stack_nodup : st.local_stack.Nodup
  decls : ∀ d ∈ A.inner.flatten ++ A.file, d.2 < st.next ∧ slot (st.syms d.2).v = some d.1
  nodup : ((A.inner.flatten ++ A.file).map Prod.snd).Nodup
  chain : ∀ k, IsChain st.syms (st.table k) (A.visible k)
  restores : Restores st.syms A.file segs A.inner
  file_scope : ∀ d ∈ A.file, (st.syms d.2).sym_scope = 0
  shadows : ∀ d ∈ A.inner.flatten, (st.syms d.2).sym_scope = 0 → ∃ d' ∈ A.file, d'.1 = d.1

theorem inv_init : Inv init ⟨[], []⟩ [] where
  stack := rfl
  scopes := rfl
  bottom _ h := by cases h
  inside h := (h rfl).elim
  outside _ := rfl
  fresh _ h := by cases h
  stack_nodup := List.nodup_nil
  decls _ h := by cases h
  nodup := List.nodup_nil
  chain _ := rfl
  restores := trivial
  file_scope _ h := by cases h
  shadows _ h := by cases h

theorem length_marks (segs : List (List Nat)) : (marks segs).length = segs.length := by
  induction segs with
  | nil => rfl
  | cons seg segs ih => rw [marks, List.length_cons, List.length_cons, ih]

section visible

variable {inner : List (List Decl)} {file ds : List Decl} {k : Slot} {s : Nat}

theorem visible_cons (ds : List Decl) (inner : List (List Decl)) (file : List Decl) (k : Slot) :
    Scopes.visible ⟨ds :: inner, file⟩ k =
      (ds.filter fun d => d.1 = k).map Prod.snd ++ Scopes.visible ⟨inner, file⟩ k := by
  rw [Scopes.visible, Scopes.visible, List.flatten_cons, List.append_assoc, List.filter_append, List.map_append]

theorem mem_visible {A : Scopes} : s ∈ A.visible k ↔ (k, s) ∈ A.inner.flatten ++ A.file := by
  rw [Scopes.visible, List.mem_map]
  constructor
  · rintro ⟨d, hd, rfl⟩
    obtain ⟨hd, hk⟩ := List.mem_filter.mp hd
    rw [← of_decide_eq_true hk]
    exact hd
  · exact fun hd => ⟨_, List.mem_filter.mpr ⟨hd, decide_eq_true rfl⟩, rfl⟩

theorem visible_declare_of_ne {A : Scopes} {k' : Slot} (hne : k' ≠ k) : (A.declare k s).visible k' = A.visible k' := by
  have hdecl : decide (k = k') = false := decide_eq_false (Ne.symm hne)
  rw [Scopes.declare]
  split
  · rename_i hinner
    simp [Scopes.visible, hinner, hdecl]
  · rename_i hinner
    simp [Scopes.visible, hinner, hdecl]

theorem visible_declare (A : Scopes) (k : Slot) (s : Nat) : (A.declare k s).visible k = s :: A.visible k := by
  rw [Scopes.declare]
  split
  · rename_i hinner
    simp [Scopes.visible, hinner]
  · rename_i hinner
    simp [Scopes.visible, hinner]

end visible

theorem Restores.congr {syms syms' : Nat → Sym} {file : List Decl} {segs : List (List Nat)}
    {inner : List (List Decl)} (h : Restores syms file segs inner)
    (hsyms : ∀ s ∈ segs.flatten, syms' s = syms s) : Restores syms' file segs inner := by
  induction segs generalizing inner with
  | nil =>
    cases inner with
    | nil => trivial
    | cons ds inner => exact h
  | cons seg segs ih =>
    cases inner with
    | nil => exact h
    | cons ds inner =>
      obtain ⟨hsub, hlowest, hrest⟩ := h
      have hseg : ∀ s ∈ seg, syms' s = syms s := fun s hs => hsyms s (List.mem_append_left _ hs)
      refine ⟨hsub, fun k s hs => ?_, ih hrest fun s hs => hsyms s (List.mem_append_right _ hs)⟩
      rw [lowest_congr fun s hs => by rw [hseg s hs]] at hs
      rw [hseg s (mem_of_lowest hs).1]
      exact hlowest k s hs

theorem Restores.length_eq {syms : Nat → Sym} {file : List Decl} {segs : List (List Nat)}
    {inner : List (List Decl)} (h : Restores syms file segs inner) : inner.length = segs.length := by
  induction segs generalizing inner with
  | nil =>
    cases inner with
    | nil => rfl
    | cons ds inner => exact h.elim
  | cons seg segs ih =>
    cases inner with
    | nil => exact h.elim
    | cons ds inner => rw [List.length_cons, List.length_cons, ih h.2.2]

theorem Restores.mem_flatten {syms : Nat → Sym} {file : List Decl} {segs : List (List Nat)}
    {inner : List (List Decl)} {d : Decl} (h : Restores syms file segs inner) (hd : d ∈ inner.flatten) :
    d.2 ∈ segs.flatten := by
  induction segs generalizing inner with
  | nil =>
    cases inner with
    | nil => cases hd
    | cons ds inner => exact h.elim
  | cons seg segs ih =>
    cases inner with
    | nil => exact h.elim
    | cons ds inner =>
      obtain hd | hd := List.mem_append.mp hd
      · exact List.mem_append_left _ (h.1.subset (List.mem_map_of_mem hd))
      · exact List.mem_append_right _ (ih h.2.2 hd)

section steps

variable {st : State} {A : Scopes} {seg : List Nat} {segs : List (List Nat)} {sym : Sym} {k : Slot}

theorem syms_of_lt {sym : Sym} {s : Nat} (hs : s < st.next) : Function.update st.syms st.next sym s = st.syms s :=
  Function.update_of_ne (Nat.ne_of_lt hs) _ _

/-- A name that no symbol of a scope has is seen as the scopes around it see it. -/
theorem visible_of_lowest_none {syms : Nat → Sym} {file ds : List Decl} {inner : List (List Decl)}
    (hsub : (ds.map Prod.snd).Sublist seg) (hdecls : ∀ d ∈ ds, slot (syms d.2).v = some d.1)
    (hlowest : lowest syms k seg = none) : Scopes.visible ⟨ds :: inner, file⟩ k = Scopes.visible ⟨inner, file⟩ k := by
  have hnone : ds.filter (fun d => d.1 = k) = [] := by
    rw [List.filter_eq_nil_iff]
    intro d hd hk
    rw [lowest, List.getLast?_eq_none_iff, List.filter_eq_nil_iff] at hlowest
    refine hlowest d.2 (hsub.subset (List.mem_map_of_mem hd)) ?_
    rw [hdecls d hd, of_decide_eq_true hk]
    exact decide_eq_true rfl
  rw [visible_cons, hnone]
  rfl

theorem bottom_cons {s : Nat} (h : ∀ seg', (seg :: segs).getLast? = some seg' → seg' ≠ []) (seg' : List Nat)
    (hlast : ((s :: seg) :: segs).getLast? = some seg') : seg' ≠ [] := by
  cases segs with
  | nil =>
    cases hlast
    exact List.cons_ne_nil _ _
  | cons seg₁ segs => exact h seg' hlast

theorem fresh_cons (h : ∀ s ∈ st.local_stack, s < st.next) (s : Nat) (hs : s ∈ st.next :: st.local_stack) :
    s < st.next + 1 := by
  obtain rfl | hs := List.mem_cons.mp hs
  · exact Nat.lt_succ_self _
  · exact Nat.lt_succ_of_lt (h s hs)

/-- A new symbol on top of the stack, and in the token array. -/
def State.declare_local (st : State) (sym : Sym) : State :=
  match slot sym.v with
  | none => st.sym_push2 true sym
  | some k => { st.sym_push2 true sym with table := Function.update st.table k (some st.next) }

theorem inv_declare_local (sym : Sym) (hinv : Inv st A (seg :: segs))
    (hprev : ∀ k, slot sym.v = some k → sym.prev_tok = st.table k)
    (hscope : ∀ k, slot sym.v = some k → sym.sym_scope = 0 → ∃ d ∈ A.file, d.1 = k) :
    Inv (st.declare_local sym) (((slot sym.v).map fun k => A.declare k st.next).getD A) ((st.next :: seg) :: segs) := by
  obtain ⟨inner, file⟩ := A
  cases inner with
  | nil => exact hinv.restores.elim
  | cons ds inner =>
    obtain ⟨hsub, hlow, hrest⟩ := hinv.restores
    have hstack := hinv.stack
    have hold : ∀ s < st.next, Function.update st.syms st.next sym s = st.syms s := fun s hs => syms_of_lt hs
    have hnew : Function.update st.syms st.next sym st.next = sym := Function.update_self ..
    have hflat : ∀ s ∈ seg ++ segs.flatten, s < st.next := by
      intro s hs
      exact hinv.fresh s (by rw [hstack]; exact hs)
    have hdecl : ∀ d ∈ (ds :: inner).flatten ++ file, Function.update st.syms st.next sym d.2 = st.syms d.2 :=
      fun d hd => hold d.2 (hinv.decls d hd).1
    have hseg : ∀ k, lowest (Function.update st.syms st.next sym) k seg = lowest st.syms k seg :=
      fun k => lowest_congr fun s hs => by rw [hold s (hflat s (List.mem_append_left _ hs))]
    have hchain : ∀ k, IsChain (Function.update st.syms st.next sym) (st.table k)
        (Scopes.visible ⟨ds :: inner, file⟩ k) := by
      intro k
      refine (hinv.chain k).congr fun s hs => ?_
      rw [hdecl _ (mem_visible.mp hs)]
    have hrest' : Restores (Function.update st.syms st.next sym) file segs inner :=
      hrest.congr fun s hs => hold s (hflat s (List.mem_append_right _ hs))
    have hnodup : (st.next :: st.local_stack).Nodup :=
      List.nodup_cons.mpr ⟨fun hs => Nat.lt_irrefl _ (hinv.fresh _ hs), hinv.stack_nodup⟩
    have hdecls : ∀ d ∈ (ds :: inner).flatten ++ file,
        d.2 < st.next + 1 ∧ slot (Function.update st.syms st.next sym d.2).v = some d.1 := by
      intro d hd
      rw [hdecl d hd]
      exact ⟨Nat.lt_succ_of_lt (hinv.decls d hd).1, (hinv.decls d hd).2⟩
    have hds : ∀ d ∈ ds, slot (st.syms d.2).v = some d.1 :=
      fun d hd => (hinv.decls d (List.mem_append_left _ (List.mem_append_left _ hd))).2
    have hfile : ∀ d ∈ file, (Function.update st.syms st.next sym d.2).sym_scope = 0 := by
      intro d hd
      rw [hdecl d (List.mem_append_right _ hd)]
      exact hinv.file_scope d hd
    have hshadows : ∀ d ∈ (ds :: inner).flatten, (Function.update st.syms st.next sym d.2).sym_scope = 0 →
        ∃ d' ∈ file, d'.1 = d.1 := by
      intro d hd hzero
      rw [hdecl d (List.mem_append_left _ hd)] at hzero
      exact hinv.shadows d hd hzero
    have hlocal : st.next :: st.local_stack = ((st.next :: seg) :: segs).flatten := by
      rw [hstack]
      rfl
    have hlowest : ∀ k s, slot sym.v ≠ some k →
        lowest (Function.update st.syms st.next sym) k (st.next :: seg) = some s →
        (Function.update st.syms st.next sym s).prev_tok = (Scopes.visible ⟨inner, file⟩ k).head? := by
      intro k s hne hs
      have hone : lowest (Function.update st.syms st.next sym) k [st.next] = none := by
        simp [lowest, hne]
      rw [← List.singleton_append, lowest_append, hone, Option.or_none, hseg] at hs
      rw [hold s (hflat s (List.mem_append_left _ (mem_of_lowest hs).1))]
      exact hlow k s hs
    rw [State.declare_local]
    cases hslot : slot sym.v with
    | none =>
      refine ⟨hlocal, hinv.scopes, bottom_cons hinv.bottom, fun _ => hinv.inside (by simp), fun h => (by cases h),
        fresh_cons hinv.fresh, hnodup, hdecls, hinv.nodup, hchain, ⟨hsub.cons _, fun k s hs => ?_, hrest'⟩, hfile,
        hshadows⟩
      exact hlowest k s (by rw [hslot]; simp) hs
    | some k =>
      refine ⟨hlocal, hinv.scopes, bottom_cons hinv.bottom, fun _ => hinv.inside (by simp), fun h => (by cases h),
        fresh_cons hinv.fresh, hnodup, ?_, ?_, fun k' => ?_, ⟨hsub.cons_cons _, fun k' s hs => ?_, hrest'⟩, hfile, ?_⟩
      · intro d hd
        obtain rfl | hd := List.mem_cons.mp hd
        · refine ⟨Nat.lt_succ_self _, ?_⟩
          change slot (Function.update st.syms st.next sym st.next).v = some k
          rw [hnew, hslot]
        · exact hdecls d hd
      · refine List.nodup_cons.mpr ⟨fun hmem => ?_, hinv.nodup⟩
        obtain ⟨d, hd, heq⟩ := List.mem_map.mp hmem
        exact Nat.ne_of_lt (hinv.decls d hd).1 heq
      · by_cases hk : k' = k
        · rw [hk]
          change IsChain (Function.update st.syms st.next sym) (Function.update st.table k (some st.next) k)
            (Scopes.visible (Scopes.declare ⟨ds :: inner, file⟩ k st.next) k)
          rw [visible_declare, Function.update_self]
          refine ⟨rfl, ?_⟩
          rw [hnew, hprev k hslot]
          exact hchain k
        · change IsChain (Function.update st.syms st.next sym) (Function.update st.table k (some st.next) k')
            (Scopes.visible (Scopes.declare ⟨ds :: inner, file⟩ k st.next) k')
          rw [visible_declare_of_ne hk, Function.update_of_ne hk]
          exact hchain k'
      · by_cases hk : k' = k
        · have hone : lowest (Function.update st.syms st.next sym) k [st.next] = some st.next := by
            simp [lowest, hslot]
          rw [hk] at hs ⊢
          change lowest (Function.update st.syms st.next sym) k (st.next :: seg) = some s at hs
          rw [← List.singleton_append, lowest_append, hone, hseg] at hs
          cases hlast : lowest st.syms k seg with
          | none =>
            rw [hlast] at hs
            cases hs
            change (Function.update st.syms st.next sym st.next).prev_tok = _
            rw [hnew, hprev k hslot, (hinv.chain k).head?_eq,
              visible_of_lowest_none hsub hds hlast]
            rfl
          | some s' =>
            rw [hlast] at hs
            cases hs
            change (Function.update st.syms st.next sym s).prev_tok = _
            rw [hold s (hflat s (List.mem_append_left _ (mem_of_lowest hlast).1))]
            exact hlow k s hlast
        · exact hlowest k' s (by rw [hslot]; simpa using Ne.symm hk) hs
      · intro d hd hzero
        obtain rfl | hd := List.mem_cons.mp hd
        · change (Function.update st.syms st.next sym st.next).sym_scope = 0 at hzero
          rw [hnew] at hzero
          exact hscope k hslot hzero
        · exact hshadows d hd hzero

/-- Where no symbol of the stack has a name, it can be declared in the file. -/
theorem Restores.of_clear {syms syms' : Nat → Sym} {file : List Decl} {segs : List (List Nat)}
    {inner : List (List Decl)} {g : Nat} (h : Restores syms file segs inner)
    (hclear : ∀ s ∈ segs.flatten, slot (syms s).v ≠ some k) (hsyms : ∀ s ∈ segs.flatten, syms' s = syms s) :
    Restores syms' ((k, g) :: file) segs inner := by
  induction segs generalizing inner with
  | nil =>
    cases inner with
    | nil => trivial
    | cons ds inner => exact h
  | cons seg segs ih =>
    cases inner with
    | nil => exact h
    | cons ds inner =>
      obtain ⟨hsub, hlow, hrest⟩ := h
      have hseg : ∀ s ∈ seg, syms' s = syms s := fun s hs => hsyms s (List.mem_append_left _ hs)
      refine ⟨hsub, fun k' s hs => ?_, ih hrest (fun s hs => hclear s (List.mem_append_right _ hs))
        fun s hs => hsyms s (List.mem_append_right _ hs)⟩
      rw [lowest_congr fun s hs => by rw [hseg s hs]] at hs
      obtain ⟨hmem, hslot⟩ := mem_of_lowest hs
      have hne : k ≠ k' := by
        rintro rfl
        exact hclear s (List.mem_append_left _ hmem) hslot
      rw [hseg s hmem, hlow k' s hs]
      simp [Scopes.visible, hne]

/-- The visible symbols of a scope are all that the stack has of a name. -/
theorem filter_eq_of_clear {syms : Nat → Sym} {ds : List Decl} (hsub : (ds.map Prod.snd).Sublist seg)
    (hdecls : ∀ d ∈ ds, slot (syms d.2).v = some d.1) (hnodup : seg.Nodup)
    (hclear : ∀ s ∈ seg, slot (syms s).v = some k → (k, s) ∈ ds) :
    (seg.filter fun s => slot (syms s).v = some k) = (ds.filter fun d => d.1 = k).map Prod.snd := by
  have hfilter : (ds.map Prod.snd).filter (fun s => slot (syms s).v = some k) =
      (ds.filter fun d => d.1 = k).map Prod.snd := by
    rw [List.filter_map]
    congr 1
    refine List.filter_congr fun d hd => ?_
    simp only [Function.comp_apply, hdecls d hd, Option.some.injEq]
  have hle := (hsub.filter fun s => slot (syms s).v = some k)
  rw [hfilter] at hle
  refine (hle.eq_of_length_le ?_).symm
  refine (List.subperm_of_subset (hnodup.filter _) fun s hs => ?_).length_le
  obtain ⟨hs, hk⟩ := List.mem_filter.mp hs
  exact List.mem_map.mpr ⟨(k, s), List.mem_filter.mpr ⟨hclear s hs (of_decide_eq_true hk), decide_eq_true rfl⟩, rfl⟩

/-- A declaration of the file behind the visible ones of its name: only the last of these is changed. -/
theorem Restores.below {syms syms' : Nat → Sym} {file : List Decl} {segs : List (List Nat)}
    {inner : List (List Decl)} {t g : Nat} (h : Restores syms file segs inner)
    (hfile : file.filter (fun d => d.1 = k) = []) (hnodup : segs.flatten.Nodup)
    (hdecls : ∀ d ∈ inner.flatten, slot (syms d.2).v = some d.1)
    (hclear : ∀ s ∈ segs.flatten, slot (syms s).v = some k → (k, s) ∈ inner.flatten)
    (hlast : (Scopes.visible ⟨inner, file⟩ k).getLast? = some t)
    (hv : ∀ s ∈ segs.flatten, (syms' s).v = (syms s).v)
    (hother : ∀ s ∈ segs.flatten, s ≠ t → syms' s = syms s)
    (ht : (syms' t).prev_tok = some g) : Restores syms' ((k, g) :: file) segs inner := by
  induction segs generalizing inner with
  | nil =>
    cases inner with
    | nil => trivial
    | cons ds inner => exact h
  | cons seg segs ih =>
    cases inner with
    | nil => exact h
    | cons ds inner =>
      obtain ⟨hsub, hlow, hrest⟩ := h
      obtain ⟨hnodup₁, hnodup₂, hapart⟩ := List.nodup_append.mp hnodup
      have hdisjoint : ∀ s ∈ seg, s ∉ segs.flatten := fun s hs hs' => hapart s hs s hs' rfl
      have hin : ∀ d ∈ inner.flatten, d.2 ∈ segs.flatten := fun d hd => hrest.mem_flatten hd
      have hds : ∀ d ∈ ds, slot (syms d.2).v = some d.1 := fun d hd => hdecls d (List.mem_append_left _ hd)
      have hclear₁ : ∀ s ∈ seg, slot (syms s).v = some k → (k, s) ∈ ds := by
        intro s hs hk
        obtain hd | hd := List.mem_append.mp (hclear s (List.mem_append_left _ hs) hk)
        · exact hd
        · exact (hdisjoint s hs (hin _ hd)).elim
      have hclear₂ : ∀ s ∈ segs.flatten, slot (syms s).v = some k → (k, s) ∈ inner.flatten := by
        intro s hs hk
        obtain hd | hd := List.mem_append.mp (hclear s (List.mem_append_right _ hs) hk)
        · exact (hdisjoint s (hsub.subset (List.mem_map_of_mem hd)) hs).elim
        · exact hd
      have hfilter := filter_eq_of_clear hsub hds hnodup₁ hclear₁
      rw [visible_cons] at hlast
      have hkept : ∀ k' s, lowest syms' k' seg = some s → s ≠ t →
          (syms' s).prev_tok = (Scopes.visible ⟨inner, file⟩ k').head? := by
        intro k' s hs hne
        rw [lowest_congr fun s hs => hv s (List.mem_append_left _ hs)] at hs
        rw [hother s (List.mem_append_left _ (mem_of_lowest hs).1) hne]
        exact hlow k' s hs
      have hnew (k' : Slot) : Scopes.visible ⟨inner, (k, g) :: file⟩ k' =
          if k = k' then Scopes.visible ⟨inner, file⟩ k' ++ [g] else Scopes.visible ⟨inner, file⟩ k' := by
        split
        · rename_i heq
          subst heq
          simp [Scopes.visible, hfile]
        · rename_i hne
          simp [Scopes.visible, hne]
      cases hvisible : Scopes.visible ⟨inner, file⟩ k with
      | nil =>
        rw [hvisible, List.append_nil, ← hfilter] at hlast
        change lowest syms k seg = some t at hlast
        have hmem : t ∈ seg := (mem_of_lowest hlast).1
        have hnone : ∀ s ∈ segs.flatten, slot (syms s).v ≠ some k := by
          intro s hs hk
          have := mem_visible (A := ⟨inner, file⟩).mpr (List.mem_append_left file (hclear₂ s hs hk))
          rw [hvisible] at this
          cases this
        refine ⟨hsub, fun k' s hs => ?_, hrest.of_clear hnone fun s hs => ?_⟩
        · rw [hnew]
          by_cases hst : s = t
          · have hs' := hs
            rw [lowest_congr fun s hs => hv s (List.mem_append_left _ hs)] at hs'
            have hk : k = k' := by
              have := (mem_of_lowest hlast).2
              rw [← hst, (mem_of_lowest hs').2] at this
              exact (Option.some.inj this).symm
            rw [if_pos hk, ← hk, hvisible, hst]
            exact ht
          · have hk : k ≠ k' := by
              rintro rfl
              rw [lowest_congr fun s hs => hv s (List.mem_append_left _ hs), hlast] at hs
              exact hst (Option.some.inj hs).symm
            rw [if_neg hk]
            exact hkept k' s hs hst
        · refine hother s (List.mem_append_right _ hs) ?_
          rintro rfl
          exact hdisjoint s hmem hs
      | cons s₁ rest =>
        have hlast' : (Scopes.visible ⟨inner, file⟩ k).getLast? = some t := by
          rw [hvisible] at hlast ⊢
          rw [List.getLast?_append_of_ne_nil _ (List.cons_ne_nil _ _)] at hlast
          exact hlast
        have hmem : t ∈ segs.flatten := by
          have hd := mem_visible.mp (List.mem_of_getLast? hlast')
          obtain hd | hd := List.mem_append.mp hd
          · exact hin _ hd
          · exact (List.filter_eq_nil_iff.mp hfile _ hd (decide_eq_true rfl)).elim
        refine ⟨hsub, fun k' s hs => ?_, ih hrest hnodup₂ (fun d hd => hdecls d (List.mem_append_right _ hd)) hclear₂
          hlast' (fun s hs => hv s (List.mem_append_right _ hs)) fun s hs => hother s (List.mem_append_right _ hs)⟩
        have hst : s ≠ t := by
          rintro rfl
          exact hdisjoint s (mem_of_lowest hs).1 hmem
        rw [hkept k' s hs hst, hnew]
        split
        · rename_i hk
          rw [← hk, hvisible]
          rfl
        · rfl

/-- What a new symbol of the file leaves as it was. -/
theorem visible_file (inner : List (List Decl)) (file : List Decl) (k k' : Slot) (g : Nat) (hne : k ≠ k') :
    Scopes.visible ⟨inner, (k, g) :: file⟩ k' = Scopes.visible ⟨inner, file⟩ k' := by
  simp [Scopes.visible, hne]

theorem visible_file_of_file {inner : List (List Decl)} {file : List Decl} {g : Nat}
    (hinner : ∀ d ∈ inner.flatten, d.1 ≠ k) :
    Scopes.visible ⟨inner, (k, g) :: file⟩ k = g :: Scopes.visible ⟨inner, file⟩ k := by
  have hnone : inner.flatten.filter (fun d => d.1 = k) = [] := by
    rw [List.filter_eq_nil_iff]
    exact fun d hd hk => hinner d hd (of_decide_eq_true hk)
  rw [Scopes.visible, Scopes.visible, List.filter_append, List.filter_append, hnone]
  simp

theorem visible_file_of_inner {inner : List (List Decl)} {file : List Decl} {g : Nat}
    (hfile : file.filter (fun d => d.1 = k) = []) :
    Scopes.visible ⟨inner, (k, g) :: file⟩ k = Scopes.visible ⟨inner, file⟩ k ++ [g] := by
  simp [Scopes.visible, hfile]

theorem nodup_insert {l l' : List Decl} {d : Decl} (h : ((l ++ l').map Prod.snd).Nodup)
    (hd : ∀ d' ∈ l ++ l', d'.2 ≠ d.2) : ((l ++ d :: l').map Prod.snd).Nodup := by
  rw [(List.perm_middle.map Prod.snd).nodup_iff, List.map_cons, List.nodup_cons]
  refine ⟨fun hmem => ?_, h⟩
  obtain ⟨d', hd', heq⟩ := List.mem_map.mp hmem
  exact hd d' hd' heq

theorem mem_insert {l l' : List Decl} {d d' : Decl} (h : d' ∈ l ++ d :: l') : d' = d ∨ d' ∈ l ++ l' := by
  rw [List.perm_middle.mem_iff] at h
  exact List.mem_cons.mp h

/-- A new symbol of the file, in front of all that are visible. -/
theorem inv_declare_file {inner : List (List Decl)} {file : List Decl} (hinv : Inv st ⟨inner, file⟩ segs)
    (hslot : slot sym.v = some k) (hscope : sym.sym_scope = 0) (hprev : sym.prev_tok = st.table k)
    (hinner : ∀ d ∈ inner.flatten, d.1 ≠ k) (hclear : ∀ s ∈ st.local_stack, slot (st.syms s).v ≠ some k) :
    Inv { st.sym_push2 false sym with table := Function.update st.table k (some st.next) }
      ⟨inner, (k, st.next) :: file⟩ segs := by
  have hold : ∀ s < st.next, Function.update st.syms st.next sym s = st.syms s := fun s hs => syms_of_lt hs
  have hnew : Function.update st.syms st.next sym st.next = sym := Function.update_self ..
  have hdecl : ∀ d ∈ inner.flatten ++ file, Function.update st.syms st.next sym d.2 = st.syms d.2 :=
    fun d hd => hold d.2 (hinv.decls d hd).1
  have hflat : ∀ s ∈ segs.flatten, s < st.next := by
    intro s hs
    exact hinv.fresh s (by rw [hinv.stack]; exact hs)
  refine ⟨hinv.stack, hinv.scopes, hinv.bottom, hinv.inside, hinv.outside,
    fun s hs => Nat.lt_succ_of_lt (hinv.fresh s hs), hinv.stack_nodup, fun d hd => ?_,
    nodup_insert hinv.nodup fun d hd => Nat.ne_of_lt (hinv.decls d hd).1, fun k' => ?_,
    hinv.restores.of_clear (fun s hs => hclear s (by rw [hinv.stack]; exact hs)) fun s hs => hold s (hflat s hs),
    fun d hd => ?_, fun d hd hzero => ?_⟩
  · obtain rfl | hd := mem_insert hd
    · refine ⟨Nat.lt_succ_self _, ?_⟩
      change slot (Function.update st.syms st.next sym st.next).v = some k
      rw [hnew, hslot]
    · change d.2 < st.next + 1 ∧ slot (Function.update st.syms st.next sym d.2).v = some d.1
      rw [hdecl d hd]
      exact ⟨Nat.lt_succ_of_lt (hinv.decls d hd).1, (hinv.decls d hd).2⟩
  · have hchain : IsChain (Function.update st.syms st.next sym) (st.table k') (Scopes.visible ⟨inner, file⟩ k') :=
      (hinv.chain k').congr fun s hs => by rw [hdecl _ (mem_visible.mp hs)]
    change IsChain (Function.update st.syms st.next sym) (Function.update st.table k (some st.next) k') _
    by_cases hk : k = k'
    · rw [← hk, visible_file_of_file hinner, Function.update_self]
      refine ⟨rfl, ?_⟩
      rw [hnew, hprev, hk]
      exact hchain
    · rw [visible_file inner file k k' st.next hk, Function.update_of_ne (Ne.symm hk)]
      exact hchain
  · change (Function.update st.syms st.next sym d.2).sym_scope = 0
    obtain rfl | hd := List.mem_cons.mp hd
    · rw [hnew, hscope]
    · rw [hdecl d (List.mem_append_right _ hd)]
      exact hinv.file_scope d hd
  · change (Function.update st.syms st.next sym d.2).sym_scope = 0 at hzero
    rw [hdecl d (List.mem_append_left _ hd)] at hzero
    obtain ⟨d', hd', heq⟩ := hinv.shadows d hd hzero
    exact ⟨d', List.mem_cons_of_mem _ hd', heq⟩

/-- A new symbol of the file, behind the visible ones of its name, which are all local. -/
theorem inv_declare_below {inner : List (List Decl)} {file : List Decl} {t : Nat} (hinv : Inv st ⟨inner, file⟩ segs)
    (hslot : slot sym.v = some k) (hscope : sym.sym_scope = 0) (hprev : sym.prev_tok = none)
    (hfile : file.filter (fun d => d.1 = k) = [])
    (hclear : ∀ s ∈ st.local_stack, slot (st.syms s).v = some k → s ∈ Scopes.visible ⟨inner, file⟩ k)
    (hlast : (Scopes.visible ⟨inner, file⟩ k).getLast? = some t) :
    Inv { st.sym_push2 false sym with
      syms := Function.update (st.sym_push2 false sym).syms t
        { (st.sym_push2 false sym).syms t with prev_tok := some st.next } }
      ⟨inner, (k, st.next) :: file⟩ segs := by
  have ht : t < st.next := (hinv.decls _ (mem_visible.mp (List.mem_of_getLast? hlast))).1
  obtain ⟨syms', hsyms⟩ : ∃ syms', syms' = Function.update (st.sym_push2 false sym).syms t
      { (st.sym_push2 false sym).syms t with prev_tok := some st.next } := ⟨_, rfl⟩
  have hother : ∀ s < st.next, s ≠ t → syms' s = st.syms s := by
    intro s hs hne
    rw [hsyms, Function.update_of_ne hne]
    exact syms_of_lt hs
  have hat : syms' t = { st.syms t with prev_tok := some st.next } := by
    have hmalloc : (st.sym_push2 false sym).syms t = st.syms t := syms_of_lt ht
    rw [hsyms, Function.update_self, hmalloc]
  have hnew : syms' st.next = sym := by
    rw [hsyms, Function.update_of_ne (Nat.ne_of_gt ht)]
    exact Function.update_self ..
  have hv : ∀ s < st.next, (syms' s).v = (st.syms s).v ∧ (syms' s).sym_scope = (st.syms s).sym_scope := by
    intro s hs
    by_cases hst : s = t
    · rw [hst, hat]
      exact ⟨rfl, rfl⟩
    · rw [hother s hs hst]
      exact ⟨rfl, rfl⟩
  have hflat : ∀ s ∈ segs.flatten, s < st.next := by
    intro s hs
    exact hinv.fresh s (by rw [hinv.stack]; exact hs)
  have hin : ∀ s ∈ segs.flatten, slot (st.syms s).v = some k → (k, s) ∈ inner.flatten := by
    intro s hs hk
    have hd := mem_visible.mp (hclear s (by rw [hinv.stack]; exact hs) hk)
    obtain hd | hd := List.mem_append.mp hd
    · exact hd
    · exact (List.filter_eq_nil_iff.mp hfile _ hd (decide_eq_true rfl)).elim
  rw [← hsyms]
  refine ⟨hinv.stack, hinv.scopes, hinv.bottom, hinv.inside, hinv.outside,
    fun s hs => Nat.lt_succ_of_lt (hinv.fresh s hs), hinv.stack_nodup, fun d hd => ?_,
    nodup_insert hinv.nodup fun d hd => Nat.ne_of_lt (hinv.decls d hd).1, fun k' => ?_,
    hinv.restores.below hfile (by rw [← hinv.stack]; exact hinv.stack_nodup)
      (fun d hd => (hinv.decls d (List.mem_append_left _ hd)).2) hin hlast (fun s hs => (hv s (hflat s hs)).1)
      (fun s hs hne => hother s (hflat s hs) hne) (congrArg Sym.prev_tok hat),
    fun d hd => ?_, fun d hd hzero => ?_⟩
  · obtain rfl | hd := mem_insert hd
    · refine ⟨Nat.lt_succ_self _, ?_⟩
      change slot (syms' st.next).v = some k
      rw [hnew, hslot]
    · refine ⟨Nat.lt_succ_of_lt (hinv.decls d hd).1, ?_⟩
      change slot (syms' d.2).v = some d.1
      rw [(hv d.2 (hinv.decls d hd).1).1]
      exact (hinv.decls d hd).2
  · change IsChain syms' (st.table k') _
    have hlt : ∀ s ∈ Scopes.visible ⟨inner, file⟩ k', s < st.next := fun s hs => (hinv.decls _ (mem_visible.mp hs)).1
    by_cases hk : k = k'
    · rw [← hk] at hlt ⊢
      rw [visible_file_of_inner hfile]
      refine (hinv.chain k).concat hlast ?_ (by rw [hat]) (by rw [hnew, hprev])
        fun s hs hne => by rw [hother s (hlt s hs) hne]
      exact (List.filter_sublist.map Prod.snd).nodup hinv.nodup
    · rw [visible_file inner file k k' st.next hk]
      refine (hinv.chain k').congr fun s hs => ?_
      rw [hother s (hlt s hs)]
      rintro rfl
      have hslot₁ := (hinv.decls _ (mem_visible.mp hs)).2
      have hslot₂ := (hinv.decls _ (mem_visible.mp (List.mem_of_getLast? hlast))).2
      exact hk (Option.some.inj (hslot₂.symm.trans hslot₁))
  · change (syms' d.2).sym_scope = 0
    obtain rfl | hd := List.mem_cons.mp hd
    · rw [hnew, hscope]
    · rw [(hv d.2 (hinv.decls d (List.mem_append_right _ hd)).1).2]
      exact hinv.file_scope d hd
  · change (syms' d.2).sym_scope = 0 at hzero
    rw [(hv d.2 (hinv.decls d (List.mem_append_left _ hd)).1).2] at hzero
    obtain ⟨d', hd', heq⟩ := hinv.shadows d hd hzero
    exact ⟨d', List.mem_cons_of_mem _ hd', heq⟩

theorem last_ps_eq {l : List Nat} {cur : Option Nat} {fuel : Nat} (ps : Option Nat) (h : IsChain st.syms cur l)
    (hscope : ∀ s ∈ l, (st.syms s).sym_scope ≠ 0) (hfuel : l.length ≤ fuel) :
    st.last_ps fuel ps cur = (l.getLast?.or ps, none) := by
  induction l generalizing cur ps fuel with
  | nil =>
    cases h
    cases fuel <;> rfl
  | cons s l ih =>
    cases fuel with
    | zero => cases hfuel
    | succ fuel =>
      obtain ⟨rfl, h⟩ := h
      rw [State.last_ps]
      simp only [if_pos (hscope s List.mem_cons_self)]
      rw [ih _ h (fun s' hs' => hscope s' (List.mem_cons_of_mem s hs')) (Nat.le_of_succ_le_succ hfuel)]
      cases l with
      | nil => rfl
      | cons s' l => rw [List.getLast?_cons_cons, List.getLast?_eq_some_getLast (List.cons_ne_nil _ _)]; rfl

theorem file_sym_eq {l : List Nat} {cur : Option Nat} {fuel : Nat} (h : IsChain st.syms cur l)
    (hfuel : l.length ≤ fuel) : st.file_sym fuel cur = l.find? fun s => (st.syms s).sym_scope = 0 := by
  induction l generalizing cur fuel with
  | nil =>
    cases h
    cases fuel <;> rfl
  | cons s l ih =>
    cases fuel with
    | zero => cases hfuel
    | succ fuel =>
      obtain ⟨rfl, h⟩ := h
      rw [State.file_sym]
      by_cases hs : (st.syms s).sym_scope = 0
      · rw [List.find?_cons_of_pos (by simpa using hs)]
        simp [hs]
      · rw [List.find?_cons_of_neg (by simpa using hs), ← ih h (Nat.le_of_succ_le_succ hfuel)]
        simp [hs]

/-- The searches of the chains come to their end. -/
theorem Inv.length_visible_le (hinv : Inv st A segs) (k : Slot) : (A.visible k).length ≤ st.next := by
  have hnodup : (A.visible k).Nodup := (List.filter_sublist.map Prod.snd).nodup hinv.nodup
  have hsub : A.visible k ⊆ List.range st.next :=
    fun s hs => List.mem_range.mpr (hinv.decls _ (mem_visible.mp hs)).1
  have hle := (List.Nodup.subperm hnodup hsub).length_le
  rwa [List.length_range] at hle

/-- A visible symbol of file scope is found just if the name is declared in the file. -/
theorem Inv.file_sym_eq_none_iff (hinv : Inv st A segs) (k : Slot) :
    st.file_sym st.next (st.table k) = none ↔ A.file.filter (fun d => d.1 = k) = [] := by
  rw [file_sym_eq (hinv.chain k) (hinv.length_visible_le k), List.find?_eq_none, List.filter_eq_nil_iff]
  constructor
  · intro h d hd hk
    refine h d.2 (mem_visible.mpr ?_) (decide_eq_true (hinv.file_scope d hd))
    rw [← of_decide_eq_true hk]
    exact List.mem_append_right _ hd
  · intro h s hs hzero
    obtain hd | hd := List.mem_append.mp (mem_visible.mp hs)
    · obtain ⟨d', hd', heq⟩ := hinv.shadows _ hd (of_decide_eq_true hzero)
      exact h d' hd' (decide_eq_true heq)
    · exact h _ hd (decide_eq_true rfl)

theorem inv_global_identifier_push {v : BitVec 32} (hinv : Inv st A segs) (hslot : slot v = some k)
    (hfile : A.file.filter (fun d => d.1 = k) = [])
    (hclear : ∀ s ∈ st.local_stack, slot (st.syms s).v = some k → s ∈ A.visible k) :
    Inv (st.global_identifier_push v) { A with file := (k, st.next) :: A.file } segs := by
  have hscope : ∀ s ∈ A.visible k, (st.syms s).sym_scope ≠ 0 := by
    intro s hs hzero
    have hnone := (hinv.file_sym_eq_none_iff k).mpr hfile
    rw [file_sym_eq (hinv.chain k) (hinv.length_visible_le k), List.find?_eq_none] at hnone
    exact hnone s hs (decide_eq_true hzero)
  have hps := last_ps_eq none (hinv.chain k) hscope (hinv.length_visible_le k)
  rw [Option.or_none] at hps
  rw [State.global_identifier_push, hslot]
  simp only [hps]
  cases hlast : (A.visible k).getLast? with
  | none =>
    have hnil := List.getLast?_eq_none_iff.mp hlast
    have htable : st.table k = none := by
      rw [(hinv.chain k).head?_eq, hnil]
      rfl
    refine inv_declare_file hinv hslot rfl htable.symm (fun d hd hk => ?_) fun s hs hk => ?_
    · have := mem_visible (k := k) (s := d.2).mpr (List.mem_append_left A.file (by rw [← hk]; exact hd))
      rw [hnil] at this
      cases this
    · have := hclear s hs hk
      rw [hnil] at this
      cases this
  | some t => exact inv_declare_below hinv hslot rfl rfl hfile hclear hlast

/-- There are scopes just if there are local symbols. -/
theorem Inv.inner_eq_nil_iff (hinv : Inv st A segs) : A.inner = [] ↔ st.local_stack = [] := by
  have hlength := hinv.restores.length_eq
  rw [hinv.stack]
  cases segs with
  | nil => simpa using hlength
  | cons seg segs =>
    refine iff_of_false (fun hnil => ?_) fun hnil => ?_
    · rw [hnil] at hlength
      cases hlength
    · have hlast := List.getLast?_eq_some_getLast (List.cons_ne_nil seg segs)
      exact hinv.bottom _ hlast (List.flatten_eq_nil_iff.mp hnil _ (List.mem_of_getLast? hlast))

theorem inv_push_file (hinv : Inv st A segs) (sym : Sym) : Inv (st.sym_push2 false sym) A segs := by
  have hdecl : ∀ d ∈ A.inner.flatten ++ A.file, Function.update st.syms st.next sym d.2 = st.syms d.2 :=
    fun d hd => syms_of_lt (hinv.decls d hd).1
  refine ⟨hinv.stack, hinv.scopes, hinv.bottom, hinv.inside, hinv.outside,
    fun s hs => Nat.lt_succ_of_lt (hinv.fresh s hs), hinv.stack_nodup, fun d hd => ?_, hinv.nodup, fun k => ?_,
    hinv.restores.congr fun s hs => syms_of_lt (hinv.fresh s (by rw [hinv.stack]; exact hs)), fun d hd => ?_,
    fun d hd hzero => ?_⟩
  · change d.2 < st.next + 1 ∧ slot (Function.update st.syms st.next sym d.2).v = some d.1
    rw [hdecl d hd]
    exact ⟨Nat.lt_succ_of_lt (hinv.decls d hd).1, (hinv.decls d hd).2⟩
  · exact (hinv.chain k).congr fun s hs => congrArg Sym.prev_tok (hdecl _ (mem_visible.mp hs))
  · exact (congrArg Sym.sym_scope (hdecl d (List.mem_append_right _ hd))).trans (hinv.file_scope d hd)
  · exact hinv.shadows d hd ((congrArg Sym.sym_scope (hdecl d (List.mem_append_left _ hd))).symm.trans hzero)

theorem Inv.exists_scope (hinv : Inv st A segs) (hlocal : st.local_stack ≠ []) :
    ∃ seg segs', segs = seg :: segs' ∧ st.local_scope ≠ 0 := by
  cases segs with
  | nil => exact (hlocal hinv.stack).elim
  | cons seg segs =>
    refine ⟨seg, segs, rfl, ?_⟩
    rw [hinv.inside (List.cons_ne_nil _ _)]
    omega

theorem inv_sym_push {v : BitVec 32} {enum_ref : Option Nat} {st' : State} (hinv : Inv st A segs)
    (hpush : st.sym_push v enum_ref = some st') : ∃ segs', Inv st' (A.step st.next (.sym_push v enum_ref)) segs' := by
  rw [State.sym_push] at hpush
  rw [Scopes.step]
  by_cases hlocal : st.local_stack = []
  · have hinner := hinv.inner_eq_nil_iff.mpr hlocal
    have hflag : (st.local_stack != []) = false := by rw [hlocal]; rfl
    obtain ⟨inner, file⟩ := A
    cases hinner
    have hsegs := hinv.restores.length_eq
    rw [hflag] at hpush
    cases hslot : slot v with
    | none =>
      rw [hslot] at hpush
      cases hpush
      exact ⟨segs, inv_push_file hinv _⟩
    | some k =>
      rw [hslot] at hpush
      simp only at hpush
      split at hpush
      · cases hpush
      · cases hpush
        refine ⟨segs, inv_declare_file hinv hslot (hinv.outside ?_) rfl (fun d hd => by cases hd) fun s hs => ?_⟩
        · exact List.length_eq_zero_iff.mp hsegs.symm
        · rw [hlocal] at hs
          cases hs
  · obtain ⟨seg, segs, rfl, hscope⟩ := hinv.exists_scope hlocal
    have hflag : (st.local_stack != []) = true := bne_iff_ne.mpr hlocal
    rw [hflag] at hpush
    cases hslot : slot v with
    | none =>
      rw [hslot] at hpush
      cases hpush
      have hdeclare := inv_declare_local ⟨v, enum_ref, 0, none⟩ hinv
        (fun k hk => by rw [hslot] at hk; cases hk) (fun k hk => by rw [hslot] at hk; cases hk)
      rw [State.declare_local, hslot] at hdeclare
      exact ⟨_, hdeclare⟩
    | some k =>
      rw [hslot] at hpush
      simp only at hpush
      split at hpush
      · cases hpush
      · cases hpush
        have hdeclare := inv_declare_local ⟨v, enum_ref, st.local_scope, st.table k⟩ hinv
          (fun k' hk => by rw [hslot] at hk; cases hk; rfl) (fun k' hk hzero => (hscope hzero).elim)
        rw [State.declare_local, hslot] at hdeclare
        exact ⟨_, hdeclare⟩

theorem inv_sym_copy {s : Nat} (hinv : Inv st A segs) (hlocal : st.local_stack ≠ [])
    (hslot : slot (st.syms s).v = some k) (hfile : ∃ d ∈ A.file, d.1 = k) :
    ∃ segs', Inv (st.sym_copy s) (A.declare k st.next) segs' := by
  obtain ⟨seg, segs, rfl, -⟩ := hinv.exists_scope hlocal
  have hdeclare := inv_declare_local { st.syms s with prev_tok := st.table k } hinv
    (fun k' hk => by cases hslot.symm.trans hk; rfl) (fun k' hk _ => by cases hslot.symm.trans hk; exact hfile)
  rw [State.declare_local] at hdeclare
  rw [State.sym_copy]
  simp only [hslot] at hdeclare ⊢
  exact ⟨_, hdeclare⟩

theorem inv_sym_copy_unrecorded {s : Nat} (hinv : Inv st A segs) (hlocal : st.local_stack ≠ [])
    (hslot : slot (st.syms s).v = none) : ∃ segs', Inv (st.sym_copy s) A segs' := by
  obtain ⟨seg, segs, rfl, -⟩ := hinv.exists_scope hlocal
  have hdeclare := inv_declare_local (st.syms s) hinv (fun k' hk => by cases hslot.symm.trans hk)
    (fun k' hk _ => by cases hslot.symm.trans hk)
  rw [State.declare_local] at hdeclare
  rw [State.sym_copy]
  simp only [hslot] at hdeclare ⊢
  exact ⟨_, hdeclare⟩

/-- What `sym_pop` of a scope leaves in the token array. -/
theorem chain_sym_pop {ds file : List Decl} {inner : List (List Decl)} (hinv : Inv st ⟨ds :: inner, file⟩ (seg :: segs))
    (keep : Bool) (k : Slot) :
    IsChain st.syms ((st.sym_pop segs.flatten keep).table k) (Scopes.visible ⟨inner, file⟩ k) := by
  have hpopped : st.local_stack.take (st.local_stack.length - segs.flatten.length) = seg := by
    rw [hinv.stack, List.flatten_cons, List.length_append, Nat.add_sub_cancel, List.take_left']
    rfl
  obtain ⟨hsub, hlow, -⟩ := hinv.restores
  change IsChain st.syms ((st.local_stack.take _).foldl st.unlink st.table k) _
  rw [hpopped, foldl_unlink]
  have hchain := hinv.chain k
  cases hlast : lowest st.syms k seg with
  | none =>
    rw [visible_of_lowest_none hsub (fun d hd => ?_) hlast] at hchain
    · exact hchain
    · exact (hinv.decls d (List.mem_append_left _ (List.mem_append_left _ hd))).2
  | some s =>
    rw [visible_cons] at hchain
    change IsChain st.syms (st.syms s).prev_tok _
    rw [hlow k s hlast]
    exact hchain.of_append

theorem bottom_tail (h : ∀ seg', (seg :: segs).getLast? = some seg' → seg' ≠ []) (seg' : List Nat)
    (hlast : segs.getLast? = some seg') : seg' ≠ [] := by
  cases segs with
  | nil => cases hlast
  | cons seg₁ segs => exact h seg' hlast

/-- A scope whose symbols are popped. -/
theorem inv_sym_pop {ds file : List Decl} {inner : List (List Decl)} {n : Nat}
    (hinv : Inv st ⟨ds :: inner, file⟩ (seg :: segs)) (hinside : segs ≠ [] → n = max 1 (segs.length - 1))
    (houtside : segs = [] → n = 0) :
    Inv { st.sym_pop segs.flatten false with scopes := marks segs, local_scope := n } ⟨inner, file⟩ segs := by
  have hstack : st.local_stack = seg ++ segs.flatten := hinv.stack
  have hmem {d : Decl} (hd : d ∈ inner.flatten ++ file) : d ∈ (ds :: inner).flatten ++ file := by
    rw [List.flatten_cons, List.append_assoc]
    exact List.mem_append_right _ hd
  refine ⟨rfl, rfl, bottom_tail hinv.bottom, hinside, houtside, fun s hs => hinv.fresh s ?_, ?_,
    fun d hd => hinv.decls d (hmem hd), ?_, fun k => chain_sym_pop hinv false k, hinv.restores.2.2, hinv.file_scope,
    fun d hd => hinv.shadows d (List.mem_append_right _ hd)⟩
  · rw [hstack]
    exact List.mem_append_right _ hs
  · have hnodup := hinv.stack_nodup
    rw [hstack] at hnodup
    exact (List.nodup_append.mp hnodup).2.1
  · have hnodup := hinv.nodup
    rw [List.flatten_cons, List.append_assoc, List.map_append] at hnodup
    exact (List.nodup_append.mp hnodup).2.1

/-- A scope whose symbols are kept on the stack: they are now among those of the scope around it. -/
theorem inv_sym_keep {ds file : List Decl} {inner : List (List Decl)} {seg₁ : List Nat}
    (hinv : Inv st ⟨ds :: inner, file⟩ (seg :: seg₁ :: segs)) :
    Inv { st.sym_pop (seg₁ :: segs).flatten true with scopes := marks (seg₁ :: segs),
                                                      local_scope := max 1 segs.length }
      ⟨inner, file⟩ ((seg ++ seg₁) :: segs) := by
  have hmem {d : Decl} (hd : d ∈ inner.flatten ++ file) : d ∈ (ds :: inner).flatten ++ file := by
    rw [List.flatten_cons, List.append_assoc]
    exact List.mem_append_right _ hd
  refine ⟨?_, rfl, ?_, fun _ => rfl, fun h => (by cases h), hinv.fresh, hinv.stack_nodup,
    fun d hd => hinv.decls d (hmem hd), ?_, fun k => chain_sym_pop hinv true k, ?_, hinv.file_scope,
    fun d hd => hinv.shadows d (List.mem_append_right _ hd)⟩
  · change st.local_stack = _
    rw [hinv.stack]
    simp
  · intro seg' hlast
    cases segs with
    | nil =>
      cases hlast
      exact fun hnil => hinv.bottom seg₁ rfl (List.append_eq_nil_iff.mp hnil).2
    | cons seg₂ segs => exact hinv.bottom seg' hlast
  · have hnodup := hinv.nodup
    rw [List.flatten_cons, List.append_assoc, List.map_append] at hnodup
    exact (List.nodup_append.mp hnodup).2.1
  · obtain ⟨hsub, hlow, hrest⟩ := hinv.restores
    cases inner with
    | nil => exact hrest.elim
    | cons ds₁ inner =>
      obtain ⟨hsub₁, hlow₁, hrest₁⟩ := hrest
      refine ⟨hsub₁.trans (List.sublist_append_right _ _), fun k s hs => ?_, hrest₁⟩
      change lowest st.syms k (seg ++ seg₁) = some s at hs
      change (st.syms s).prev_tok = _
      rw [lowest_append] at hs
      cases hlast : lowest st.syms k seg₁ with
      | none =>
        rw [hlast, Option.none_or] at hs
        rw [hlow k s hs, visible_of_lowest_none hsub₁ (fun d hd => ?_) hlast]
        exact (hinv.decls d (List.mem_append_left _ (List.mem_append_right _ (List.mem_append_left _ hd)))).2
      | some s₁ =>
        rw [hlast] at hs
        cases hs
        exact hlow₁ k s hlast

theorem next_global_identifier_push (st : State) (v : BitVec 32) :
    (st.global_identifier_push v).next = st.next + 1 ∧ (st.global_identifier_push v).local_stack = st.local_stack := by
  rw [State.global_identifier_push]
  split
  · exact ⟨rfl, rfl⟩
  · dsimp only
    split <;> exact ⟨rfl, rfl⟩

theorem inv_external_sym {v : BitVec 32} {func : Bool} (hinv : Inv st A segs)
    (hclear : ∀ k, slot v = some k → A.file.filter (fun d => d.1 = k) = [] →
      ∀ s ∈ st.local_stack, slot (st.syms s).v = some k → s ∈ A.visible k) :
    ∃ segs', Inv (st.external_sym v func) (A.step st.next (.external_sym v func)) segs' := by
  rw [State.external_sym, Scopes.step]
  cases hslot : slot v with
  | none =>
    have hpush : st.global_identifier_push v = st.sym_push2 false ⟨v, none, 0, none⟩ := by
      rw [State.global_identifier_push, hslot]
    simp only [Option.bind_none, hpush]
    have hinv' := inv_push_file hinv ⟨v, none, 0, none⟩
    split
    · rename_i hlocal
      refine inv_sym_copy_unrecorded hinv' hlocal.1 ?_
      change slot (Function.update st.syms st.next _ st.next).v = none
      rw [Function.update_self]
      exact hslot
    · exact ⟨segs, hinv'⟩
  | some k =>
    have hany : (A.file.any fun d => d.1 = k) = true ↔ A.file.filter (fun d => d.1 = k) ≠ [] := by
      rw [List.any_eq_true, ne_eq, List.filter_eq_nil_iff]
      push Not
      rfl
    simp only [Option.bind_some]
    cases hfound : st.file_sym st.next (st.table k) with
    | none =>
      have hfile := (hinv.file_sym_eq_none_iff k).mp hfound
      have hinv' := inv_global_identifier_push hinv hslot hfile (hclear k hslot hfile)
      obtain ⟨hnext, hstack⟩ := next_global_identifier_push st v
      rw [if_neg (fun h => (hany.mp h) hfile)]
      simp only [hstack, ne_eq, ← hinv.inner_eq_nil_iff]
      split
      · rename_i hlocal
        have hcopy := inv_sym_copy (s := st.next) hinv' (by rw [hstack, ne_eq, ← hinv.inner_eq_nil_iff]; exact hlocal.1)
          (hinv'.decls (k, st.next) (List.mem_append_right _ List.mem_cons_self)).2
          ⟨(k, st.next), List.mem_cons_self, rfl⟩
        rw [hnext] at hcopy
        exact hcopy
      · exact ⟨segs, hinv'⟩
    | some s =>
      have hfile : A.file.filter (fun d => d.1 = k) ≠ [] := by
        intro hnil
        rw [(hinv.file_sym_eq_none_iff k).mpr hnil] at hfound
        cases hfound
      rw [file_sym_eq (hinv.chain k) (hinv.length_visible_le k)] at hfound
      have hs := mem_visible.mp (List.mem_of_find?_eq_some hfound)
      rw [if_pos (hany.mpr hfile)]
      simp only [ne_eq, ← hinv.inner_eq_nil_iff]
      split
      · rename_i hlocal
        obtain ⟨d, hd, hk⟩ := List.any_eq_true.mp (hany.mpr hfile)
        exact inv_sym_copy hinv (by rw [ne_eq, ← hinv.inner_eq_nil_iff]; exact hlocal.1) (hinv.decls _ hs).2
          ⟨d, hd, of_decide_eq_true hk⟩
      · exact ⟨segs, hinv⟩

theorem inv_external_global_sym {v : BitVec 32} (hinv : Inv st A segs)
    (hclear : ∀ k, slot v = some k → A.file.filter (fun d => d.1 = k) = [] →
      ∀ s ∈ st.local_stack, slot (st.syms s).v = some k → s ∈ A.visible k) :
    Inv (st.external_global_sym v) (A.step st.next (.external_global_sym v)) segs := by
  rw [State.external_global_sym, Scopes.step]
  cases hslot : slot v with
  | none =>
    have hpush : st.global_identifier_push v = st.sym_push2 false ⟨v, none, 0, none⟩ := by
      rw [State.global_identifier_push, hslot]
    simp only [Option.bind_none, if_true, hpush]
    exact inv_push_file hinv _
  | some k =>
    have hnil : st.table k = none ↔ A.visible k = [] := by
      rw [(hinv.chain k).head?_eq, List.head?_eq_none_iff]
    simp only [Option.bind_some, hnil]
    split
    · rename_i hvisible
      have hfile : A.file.filter (fun d => d.1 = k) = [] := by
        have := (List.append_eq_nil_iff.mp ((List.map_append ..).symm.trans
          ((congrArg _ (List.filter_append ..)).symm.trans hvisible))).2
        exact List.map_eq_nil_iff.mp this
      exact inv_global_identifier_push hinv hslot hfile (hclear k hslot hfile)
    · exact hinv

end steps

theorem Inv.new_scope {st : State} {A : Scopes} {segs : List (List Nat)} {n : Nat} (hinv : Inv st A segs)
    (hne : segs ≠ []) (hn : n + 1 = max 1 segs.length) :
    Inv { st with local_scope := n }.new_scope { A with inner := [] :: A.inner } ([] :: segs) where
  stack := hinv.stack
  scopes := by
    change st.local_stack :: st.scopes = _
    rw [hinv.stack, hinv.scopes]
    rfl
  bottom seg hseg := by
    rw [List.getLast?_cons, List.getLast?_eq_some_getLast hne] at hseg
    exact hinv.bottom seg (by rw [List.getLast?_eq_some_getLast hne]; exact hseg)
  inside _ := hn
  outside h := by cases h
  fresh := hinv.fresh
  stack_nodup := hinv.stack_nodup
  decls := hinv.decls
  nodup := hinv.nodup
  chain := hinv.chain
  restores := ⟨List.nil_sublist _, fun k s hs => (by cases hs), hinv.restores⟩
  file_scope := hinv.file_scope
  shadows := hinv.shadows

/-- A name that the file has no declaration of is declared there only when all its symbols on the local
    stack are visible. A statement expression leaves symbols on the stack that no longer are. -/
def Clear (st : State) (A : Scopes) : Action → Prop
  | .external_sym v _ | .external_global_sym v => ∀ k, slot v = some k → A.file.filter (fun d => d.1 = k) = [] →
      ∀ s ∈ st.local_stack, slot (st.syms s).v = some k → s ∈ A.visible k
  | _ => True

theorem inv_step {st st' : State} {A : Scopes} {segs : List (List Nat)} {a : Action} (hinv : Inv st A segs)
    (hclear : Clear st A a) (hstep : step st a = some st') : ∃ segs', Inv st' (A.step st.next a) segs' := by
  have hmarks : st.scopes.length = segs.length := by rw [hinv.scopes, length_marks]
  cases a with
  | sym_push v enum_ref => exact inv_sym_push hinv hstep
  | external_sym v func =>
    cases hstep
    exact inv_external_sym hinv hclear
  | external_global_sym v =>
    cases hstep
    exact ⟨segs, inv_external_global_sym hinv hclear⟩
  | enter_function =>
    obtain ⟨inner, file⟩ := A
    change st.enter_function = some st' at hstep
    rw [State.enter_function] at hstep
    split at hstep
    swap
    · cases hstep
    rename_i hscopes
    rw [hscopes] at hmarks
    cases segs with
    | cons seg segs => cases hmarks
    | nil =>
      cases hstep
      have hinner : inner = [] := List.length_eq_zero_iff.mp hinv.restores.length_eq
      subst hinner
      have hinv' := inv_push_file hinv ⟨SYM_FIELD, none, 0, none⟩
      refine ⟨[[st.next]], ?_, rfl, ?_, fun _ => rfl, fun h => (by cases h), ?_, ?_, hinv'.decls, hinv'.nodup,
        hinv'.chain, ⟨List.nil_sublist _, fun k s hs => ?_, trivial⟩, hinv'.file_scope, hinv'.shadows⟩
      · change st.next :: st.local_stack = _
        rw [hinv.stack]
        rfl
      · intro seg hseg
        cases hseg
        exact List.cons_ne_nil _ _
      · exact fresh_cons hinv.fresh
      · exact List.nodup_cons.mpr ⟨fun hs => Nat.lt_irrefl _ (hinv.fresh _ hs), hinv.stack_nodup⟩
      · obtain ⟨hmem, hslot⟩ := mem_of_lowest hs
        rw [List.mem_singleton.mp hmem] at hslot
        change slot (Function.update st.syms st.next ⟨SYM_FIELD, none, 0, none⟩ st.next).v = some k at hslot
        rw [Function.update_self] at hslot
        cases hslot
  | enter_body =>
    change st.enter_body = some st' at hstep
    rw [State.enter_body] at hstep
    split at hstep
    swap
    · cases hstep
    rename_i mark hscopes
    rw [hscopes] at hmarks
    obtain ⟨seg, rfl⟩ := List.length_eq_one_iff.mp hmarks.symm
    cases hstep
    exact ⟨[] :: [seg], hinv.new_scope (List.cons_ne_nil _ _) rfl⟩
  | new_scope =>
    change (if 2 ≤ st.scopes.length then some st.new_scope else none) = some st' at hstep
    split at hstep
    swap
    · cases hstep
    rename_i hlength
    cases hstep
    rw [hmarks] at hlength
    have hne : segs ≠ [] := by
      rintro rfl
      cases hlength
    refine ⟨[] :: segs, hinv.new_scope hne ?_⟩
    rw [hinv.inside hne]
    omega
  | prev_scope is_expr =>
    obtain ⟨inner, file⟩ := A
    change st.prev_scope is_expr = some st' at hstep
    rw [State.prev_scope] at hstep
    split at hstep
    swap
    · cases hstep
    rename_i lstk body params scopes hscopes
    cases hstep
    have hrestores := hinv.restores
    have hmark := hinv.scopes
    rw [hscopes] at hmark hmarks
    obtain ⟨seg, seg₁, segs, rfl⟩ : ∃ seg seg₁ segs', segs = seg :: seg₁ :: segs' := by
      match segs, hmarks with
      | seg :: seg₁ :: segs, _ => exact ⟨seg, seg₁, segs, rfl⟩
    obtain ⟨ds, inner, rfl⟩ : ∃ ds inner', inner = ds :: inner' := by
      match inner, hrestores with
      | ds :: inner, _ => exact ⟨ds, inner, rfl⟩
    obtain ⟨rfl, hrest⟩ := List.cons.inj hmark
    have hlocal : st.local_scope - 1 = max 1 segs.length := by
      have hin := hinv.inside (List.cons_ne_nil _ _)
      rw [List.length_cons, List.length_cons] at hin hmarks
      rw [hin]
      simp only [List.length_cons] at hmarks
      omega
    rw [hrest, hlocal]
    cases is_expr with
    | true => exact ⟨_, inv_sym_keep hinv⟩
    | false =>
      refine ⟨_, inv_sym_pop hinv (fun _ => rfl) fun h => (by cases h)⟩
  | leave_function =>
    obtain ⟨inner, file⟩ := A
    change st.leave_function = some st' at hstep
    rw [State.leave_function] at hstep
    split at hstep
    swap
    · cases hstep
    rename_i lstk params hscopes
    cases hstep
    have hrestores := hinv.restores
    have hmark := hinv.scopes
    rw [hscopes] at hmark hmarks
    obtain ⟨seg, seg₁, rfl⟩ := List.length_eq_two.mp hmarks.symm
    obtain ⟨ds, ds₁, rfl⟩ := List.length_eq_two.mp hrestores.length_eq
    cases hmark
    have hinv₁ := inv_sym_pop (n := 1) hinv (fun _ => rfl) fun h => (by cases h)
    have hinv₂ := inv_sym_pop (n := 0) hinv₁ (fun h => (h rfl).elim) fun _ => rfl
    exact ⟨[], hinv₂⟩

/-- The runs of the parser, each with the scopes that the language has at that point. -/
inductive Reachable : State → Scopes → Prop
  | init : Reachable init ⟨[], []⟩
  | step {st st' : State} {A : Scopes} {a : Action} (h : Reachable st A) (hclear : Clear st A a)
      (hstep : step st a = some st') : Reachable st' (A.step st.next a)

/-- A symbol of a statement expression hides that the name is declared for the file later: it is popped
    after that and takes the declaration out of the token array. -/
example : (([.enter_function, .enter_body, .new_scope, .sym_push 0x200#32 none, .prev_scope true,
    .external_global_sym 0x200#32, .leave_function] : List Action).foldlM step init).map
      (fun st => (st.table ⟨false, 0x200#32⟩, st.global_stack)) = some (none, [2]) := rfl

end tcc.scope
