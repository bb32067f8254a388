import Mathlib.Algebra.Order.Ring.Nat
import Tcc.Link.Symbols

/-! Tables of named symbols, into which symbols are entered one after the other. -/

namespace tcc.elf

/-- A string that a zero can end. -/
abbrev Name := {name : List (BitVec 8) // 0#8 ∉ name}

theorem nul_notMem_f : 0#8 ∉ [102#8] := by decide

abbrev Named := Name × ElfSym

/-- What a symbol becomes when another of its name is entered. -/
def merged (s : SymTab) (esym sym : ElfSym) : ElfSym :=
  if esym = sym then esym
  else if esym.st_shndx ≠ SHN_UNDEF then
    let esym := esym.setVis (new_vis esym.vis sym.vis)
    match s.resolve esym sym with
    | .patch => esym.patch sym
    | .keep | .twice => esym
  else sym

/-- The symbol of a name that is not local. -/
def find (l : List Named) (name : Name) : Option Nat :=
  l.findIdx? fun x => x.2.bind ≠ .STB_LOCAL ∧ x.1 = name

/-- Enters a symbol: the table and the index of its entry. -/
def enter (s : SymTab) (l : List Named) (x : Named) : List Named × Nat :=
  if x.2.bind = .STB_LOCAL then (l ++ [x], l.length)
  else
    match find l x.1 with
    | none => (l ++ [x], l.length)
    | some k => (l.modify k fun y => (y.1, merged s y.2 x.2), k)

def enter_all (s : SymTab) (l : List Named) : List Named → List Named × List Nat
  | [] => (l, [])
  | x :: xs =>
    let (l, k) := enter s l x
    let (l, tr) := enter_all s l xs
    (l, k :: tr)

/-- No two symbols that are not local have one name. -/
def Unique (l : List Named) : Prop :=
  ∀ (i j : Nat) (x y : Named), l[i]? = some x → l[j]? = some y → x.2.bind ≠ .STB_LOCAL → y.2.bind ≠ .STB_LOCAL →
    x.1 = y.1 → i = j

/-- What an entry may become: a local one stays, another keeps its name. -/
structure Becomes (x y : Named) : Prop where
  name : y.1 = x.1
  eq_of_local : x.2.bind = .STB_LOCAL → y = x
  not_local : x.2.bind ≠ .STB_LOCAL → y.2.bind ≠ .STB_LOCAL

def Extends (l l' : List Named) : Prop :=
  ∀ (k : Nat) (x : Named), l[k]? = some x → ∃ y, l'[k]? = some y ∧ Becomes x y

theorem Becomes.refl (x : Named) : Becomes x x := ⟨rfl, fun _ => rfl, id⟩

theorem Becomes.trans {x y z : Named} (hxy : Becomes x y) (hyz : Becomes y z) : Becomes x z := by
  refine ⟨hyz.name.trans hxy.name, fun hlocal => ?_, fun hlocal => hyz.not_local (hxy.not_local hlocal)⟩
  have hy := hxy.eq_of_local hlocal
  subst hy
  exact hyz.eq_of_local hlocal

theorem Extends.refl (l : List Named) : Extends l l := fun _ x hx => ⟨x, hx, Becomes.refl x⟩

theorem Extends.trans {l l' l'' : List Named} (h : Extends l l') (h' : Extends l' l'') : Extends l l'' := by
  intro k x hx
  obtain ⟨y, hy, hxy⟩ := h k x hx
  obtain ⟨z, hz, hyz⟩ := h' k y hy
  exact ⟨z, hz, hxy.trans hyz⟩

theorem merged_not_local (s : SymTab) {esym sym : ElfSym} (hesym : esym.bind ≠ .STB_LOCAL)
    (hsym : sym.bind ≠ .STB_LOCAL) : (merged s esym sym).bind ≠ .STB_LOCAL := by
  rw [merged]
  split
  · exact hesym
  · split
    · dsimp only
      split
      · exact hsym
      · exact hesym
      · exact hesym
    · exact hsym

theorem find_eq_some {l : List Named} {name : Name} {k : Nat} (hfind : find l name = some k) :
    ∃ x, l[k]? = some x ∧ x.2.bind ≠ .STB_LOCAL ∧ x.1 = name := by
  obtain ⟨hk, hx, -⟩ := List.findIdx?_eq_some_iff_getElem.mp hfind
  exact ⟨l[k], List.getElem?_eq_getElem hk, of_decide_eq_true hx⟩

theorem find_eq_none {l : List Named} {name : Name} (hfind : find l name = none) {k : Nat} {x : Named}
    (hx : l[k]? = some x) (hlocal : x.2.bind ≠ .STB_LOCAL) : x.1 ≠ name := by
  have hnone := List.findIdx?_eq_none_iff.mp hfind x (List.mem_of_getElem? hx)
  intro hname
  exact absurd ⟨hlocal, hname⟩ (of_decide_eq_false hnone)

theorem Unique.append {l : List Named} (hunique : Unique l) {x : Named}
    (hnew : x.2.bind ≠ .STB_LOCAL → ∀ (k : Nat) (y : Named), l[k]? = some y → y.2.bind ≠ .STB_LOCAL → y.1 ≠ x.1) :
    Unique (l ++ [x]) := by
  have hcases : ∀ (k : Nat) (y : Named), (l ++ [x])[k]? = some y → l[k]? = some y ∨ (k = l.length ∧ y = x) := by
    intro k y hy
    rcases lt_trichotomy k l.length with hk | hk | hk
    · rw [List.getElem?_append_left hk] at hy
      exact Or.inl hy
    · subst hk
      rw [List.getElem?_concat_length, Option.some.injEq] at hy
      exact Or.inr ⟨rfl, hy.symm⟩
    · rw [List.getElem?_eq_none (by rw [List.length_append, List.length_singleton]; omega)] at hy
      cases hy
  intro i j y z hy hz hylocal hzlocal hname
  rcases hcases i y hy with hy' | ⟨rfl, rfl⟩ <;> rcases hcases j z hz with hz' | ⟨rfl, rfl⟩
  · exact hunique i j y z hy' hz' hylocal hzlocal hname
  · exact absurd hname (hnew hzlocal i y hy' hylocal)
  · exact absurd hname.symm (hnew hylocal j z hz' hzlocal)
  · rfl

/-- What entering a symbol does. -/
structure Entered (l : List Named) (x : Named) (k : Nat) (l' : List Named) : Prop where
  extends_ : Extends l l'
  unique : Unique l'
  entry : ∃ y, l'[k]? = some y ∧ Becomes x y
  length : l'.length = l.length ∨ (l'.length = l.length + 1 ∧ k = l.length)

theorem entered_append {l : List Named} {x : Named} (hunique : Unique (l ++ [x])) :
    Entered l x l.length (l ++ [x]) := by
  refine ⟨fun k y hy => ⟨y, ?_, Becomes.refl y⟩, hunique, ⟨x, List.getElem?_concat_length, Becomes.refl x⟩,
    Or.inr ⟨by rw [List.length_append, List.length_singleton], rfl⟩⟩
  rw [List.getElem?_append_left (List.getElem?_eq_some_iff.mp hy).1]
  exact hy

theorem enter_spec (s : SymTab) {l : List Named} (hunique : Unique l) (x : Named) :
    Entered l x (enter s l x).2 (enter s l x).1 := by
  rw [enter]
  split
  · rename_i hlocal
    exact entered_append (hunique.append fun h => absurd hlocal h)
  · rename_i hlocal
    split
    · rename_i hfind
      exact entered_append (hunique.append fun _ k y hy hylocal => find_eq_none hfind hy hylocal)
    · rename_i k hfind
      obtain ⟨y, hy, hylocal, hname⟩ := find_eq_some hfind
      have hmerged := merged_not_local s hylocal hlocal
      have hget : ∀ (i : Nat) (z : Named), (l.modify k fun y => (y.1, merged s y.2 x.2))[i]? = some z →
          ∃ z' : Named, l[i]? = some z' ∧ z.1 = z'.1 ∧ (z.2.bind ≠ .STB_LOCAL → z'.2.bind ≠ .STB_LOCAL) := by
        intro i z hz
        by_cases hi : k = i
        · subst hi
          rw [List.getElem?_modify_eq, hy, Option.map_eq_map, Option.map_some, Option.some.injEq] at hz
          subst hz
          exact ⟨y, hy, rfl, fun _ => hylocal⟩
        · rw [List.getElem?_modify_ne _ _ hi] at hz
          exact ⟨z, hz, rfl, id⟩
      refine ⟨fun i z hz => ?_, fun i j u v hu hv hulocal hvlocal huv => ?_,
        ⟨(y.1, merged s y.2 x.2), ?_, ⟨hname, fun h => absurd h hlocal, fun _ => hmerged⟩⟩,
        Or.inl (List.length_modify _ _ _)⟩
      · by_cases hi : k = i
        · subst hi
          rw [hy, Option.some.injEq] at hz
          subst hz
          refine ⟨(y.1, merged s y.2 x.2), ?_, rfl, fun h => absurd h hylocal, fun _ => hmerged⟩
          rw [List.getElem?_modify_eq, hy]
          rfl
        · refine ⟨z, ?_, Becomes.refl z⟩
          rw [List.getElem?_modify_ne _ _ hi, hz]
      · obtain ⟨u', hu', hueq, hulocal'⟩ := hget i u hu
        obtain ⟨v', hv', hveq, hvlocal'⟩ := hget j v hv
        refine hunique i j u' v' hu' hv' (hulocal' hulocal) (hvlocal' hvlocal) ?_
        rw [← hueq, ← hveq, huv]
      · rw [List.getElem?_modify_eq, hy]
        rfl

/-- What entering symbols does: each has an entry of its name, and no other entry is new. -/
structure EnteredAll (l xs : List Named) (tr : List Nat) (l' : List Named) : Prop where
  extends_ : Extends l l'
  unique : Unique l'
  entry : ∀ (i : Nat) (x : Named), xs[i]? = some x → ∃ (k : Nat) (y : Named), tr[i]? = some k ∧ l'[k]? = some y ∧ Becomes x y
  new : ∀ (k : Nat) (y : Named), l.length ≤ k → l'[k]? = some y → ∃ x ∈ xs, y.1 = x.1

theorem enter_all_spec (s : SymTab) {l : List Named} (hunique : Unique l) (xs : List Named) :
    EnteredAll l xs (enter_all s l xs).2 (enter_all s l xs).1 := by
  induction xs generalizing l with
  | nil =>
    refine ⟨Extends.refl l, hunique, by simp, fun k y hk hy => ?_⟩
    rw [enter_all, List.getElem?_eq_none hk] at hy
    cases hy
  | cons x xs ih =>
    have henter := enter_spec s hunique x
    obtain ⟨l₁, k₁, heq⟩ : ∃ l₁ k₁, enter s l x = (l₁, k₁) := ⟨_, _, rfl⟩
    rw [heq] at henter
    dsimp only at henter
    have hall := ih henter.unique
    obtain ⟨l₂, tr, heq₂⟩ : ∃ l₂ tr, enter_all s l₁ xs = (l₂, tr) := ⟨_, _, rfl⟩
    rw [heq₂] at hall
    dsimp only at hall
    simp only [enter_all, heq, heq₂]
    refine ⟨henter.extends_.trans hall.extends_, hall.unique, fun i z hz => ?_, fun k y hk hy => ?_⟩
    · cases i with
      | zero =>
        cases hz
        obtain ⟨y, hy, hbecomes⟩ := henter.entry
        obtain ⟨y', hy', hbecomes'⟩ := hall.extends_ k₁ y hy
        exact ⟨k₁, y', rfl, hy', hbecomes.trans hbecomes'⟩
      | succ i =>
        obtain ⟨k, y, hk, hy, hbecomes⟩ := hall.entry i z hz
        exact ⟨k, y, hk, hy, hbecomes⟩
    · rcases henter.length with hlength | ⟨hlength, hk₁⟩
      · obtain ⟨x', hx', hname⟩ := hall.new k y (hlength ▸ hk) hy
        exact ⟨x', List.mem_cons_of_mem _ hx', hname⟩
      · rcases Nat.eq_or_lt_of_le hk with rfl | hlt
        · obtain ⟨z, hz, hbecomes⟩ := henter.entry
          obtain ⟨z', hz', hbecomes'⟩ := hall.extends_ k₁ z hz
          rw [hk₁, hy, Option.some.injEq] at hz'
          subst hz'
          exact ⟨x, List.mem_cons_self, (hbecomes.trans hbecomes').name⟩
        · obtain ⟨x', hx', hname⟩ := hall.new k y (by omega) hy
          exact ⟨x', List.mem_cons_of_mem _ hx', hname⟩

end tcc.elf
