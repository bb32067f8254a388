import Mathlib.Data.List.Count
import Mathlib.Data.List.Perm.Basic
import Tcc.Gen.Block

/-! The code of a statement does what the statement means. -/

open machine.backpatch

namespace tcc.statement

/-- `g'` comes from `g` by emitting code and giving targets to jumps from `n` on. -/
structure Emits (n : Nat) (g g' : Gen) : Prop where
  grows : Grows n g.code g'.code
  completes : ∀ {C}, Completes C g'.code → Completes C g.code

/-- The same, where the jumps without a target are those of `l` before and those of `l'` after. -/
def Goes (n : Nat) (g : Gen) (l : Chain) (g' : Gen) (l' : Chain) : Prop :=
  n ≤ g.ind → PendingFrom n g.code l → Emits n g g' ∧ PendingFrom n g'.code l'

section goes

variable {n : Nat} {g g₁ g₂ : Gen} {l l₁ l₂ t : Chain}

theorem Emits.refl (n : Nat) (g : Gen) : Emits n g g := ⟨Grows.refl n g.code, id⟩

theorem Emits.trans (h₁ : Emits n g g₁) (h₂ : Emits n g₁ g₂) : Emits n g g₂ :=
  ⟨h₁.grows.trans h₂.grows, fun h => h₁.completes (h₂.completes h)⟩

theorem Emits.ind_le (h : Emits n g g₁) : g.ind ≤ g₁.ind := h.grows.length_le

theorem Goes.refl : Goes n g l g l := fun _ h => ⟨Emits.refl n g, h⟩

theorem Goes.trans (h₁ : Goes n g l g₁ l₁) (h₂ : Goes n g₁ l₁ g₂ l₂) : Goes n g l g₂ l₂ := by
  intro hn hpending
  obtain ⟨hemits₁, hpending₁⟩ := h₁ hn hpending
  obtain ⟨hemits₂, hpending₂⟩ := h₂ (hn.trans hemits₁.ind_le) hpending₁
  exact ⟨hemits₁.trans hemits₂, hpending₂⟩

/-- The chains may be taken in any order. -/
theorem Goes.perm (h : Goes n g l₁ g₁ l₂) (hl : ∀ p, l.count p = l₁.count p) (hl' : ∀ p, l₂.count p = t.count p) :
    Goes n g l g₁ t := by
  intro hn hpending
  obtain ⟨hemits, hpending'⟩ := h hn (hpending.perm (List.perm_iff_count.mpr hl))
  exact ⟨hemits, hpending'.perm (List.perm_iff_count.mpr hl')⟩

/-- Only the bit has changed. -/
theorem Goes.of_code (h : g₁.code = g.code) : Goes n g l g₁ l := by
  intro _ hpending
  refine ⟨⟨?_, fun hC => ?_⟩, by rwa [h]⟩
  · rw [h]
    exact Grows.refl n g.code
  · rwa [h] at hC

theorem o_of_live (hg : g.off = false) (i : Item Instr) : g.o i = { g with code := g.code ++ [i] } :=
  if_neg (by rw [hg]; exact Bool.false_ne_true)

theorem o_of_off (hg : g.off = true) (i : Item Instr) : g.o i = g := if_pos hg

@[simp] theorem off_o (g : Gen) (i : Item Instr) : (g.o i).off = g.off := by
  rw [Gen.o]
  split <;> rfl

theorem Goes.o (i : Instr) : Goes n g l (g.o (.instr i)) l := by
  cases hg : g.off with
  | true =>
    rw [o_of_off hg]
    exact Goes.refl
  | false =>
    rw [o_of_live hg]
    exact fun hn hpending => ⟨⟨Grows.append hn _, Completes.append⟩, hpending.append_instr i⟩

theorem Goes.gind : Goes n g l (gind g).2 l := Goes.of_code rfl

theorem Goes.gjmp_addr (a : Nat) : Goes n g l (gjmp_addr a g) l := by
  cases hg : g.off with
  | true =>
    rw [statement.gjmp_addr, o_of_off hg]
    exact Goes.of_code rfl
  | false =>
    rw [statement.gjmp_addr, o_of_live hg]
    exact fun hn hpending => ⟨⟨Grows.append hn _, Completes.append⟩, hpending.append_jump a⟩

theorem gjmp_of_off (hg : g.off = true) (t : Chain) : gjmp t g = (t, g) := if_pos hg

theorem gjmp_of_live (hg : g.off = false) (t : Chain) :
    gjmp t g = (g.ind :: t, ⟨g.code ++ [.jump none], true⟩) := by
  rw [gjmp, if_neg (by rw [hg]; exact Bool.false_ne_true), o_of_live hg]
  rfl

theorem Goes.gjmp (t : Chain) : Goes n g (t ++ l) (gjmp t g).2 ((gjmp t g).1 ++ l) := by
  cases hg : g.off with
  | true =>
    rw [gjmp_of_off hg]
    exact Goes.refl
  | false =>
    rw [gjmp_of_live hg]
    exact fun hn hpending => ⟨⟨Grows.append hn _, Completes.append⟩, hpending.append_pending hn⟩

theorem gvtst_of_live (hg : g.off = false) (inv : Bool) (k : Nat) (t : Chain) :
    gvtst inv (.test k) t g =
      ((g.ind + 1) :: t, ⟨g.code ++ [.instr (.test k inv)] ++ [.jump none], false⟩) := by
  rw [gvtst, if_neg (by rw [hg]; exact Bool.false_ne_true), o_of_live hg, o_of_live (by exact hg), hg]

theorem Goes.gvtst (inv : Bool) (c : Cond) (t : Chain) :
    Goes n g (t ++ l) (gvtst inv c t g).2 ((gvtst inv c t g).1 ++ l) := by
  cases c with
  | const b =>
    rw [statement.gvtst]
    split
    · exact Goes.gjmp t
    · exact Goes.refl
  | test k =>
    cases hg : g.off with
    | true =>
      rw [statement.gvtst, if_pos hg]
      exact Goes.refl
    | false =>
      rw [gvtst_of_live hg]
      intro hn hpending
      have hlen : (g.code ++ [Item.instr (Instr.test k inv)]).length = g.ind + 1 := by simp [Gen.ind]
      refine ⟨⟨(Grows.append hn _).trans (Grows.append (hn.trans (by rw [hlen]; omega)) _),
        fun h => h.append.append⟩, ?_⟩
      have := (hpending.append_instr (.test k inv)).append_pending (hn.trans (by rw [hlen]; omega))
      rwa [hlen] at this

theorem Goes.gsym_addr (t : Chain) (a : Nat) : Goes n g (t ++ l) (gsym_addr t a g) l := by
  intro _ hpending
  have ht (p : Nat) (hp : p ∈ t) : n ≤ p ∧ Pending g.code p := (hpending.mem_iff p).mp (List.mem_append_left l hp)
  exact ⟨⟨Grows.patch (fun p hp => (ht p hp).1) a, fun h => (Completes.patch (fun p hp => (ht p hp).2) h).1⟩,
    hpending.patch a⟩

theorem Goes.gsym (t : Chain) : Goes n g (t ++ l) (gsym t g) l := by
  rw [statement.gsym]
  split
  · rename_i ht
    rw [ht]
    exact Goes.refl
  · exact (Goes.gsym_addr t g.ind).trans (Goes.of_code rfl)

end goes

/-- The chains of the scope, and that of the returns. -/
def Ctx.chains (x : Ctx) : Chain := x.bsym.getD [] ++ (x.csym.getD [] ++ x.rsym)

/-- The chains only get longer, and none appears. -/
structure Ctx.Extends (x x' : Ctx) : Prop where
  bsym_isSome : x'.bsym.isSome = x.bsym.isSome
  csym_isSome : x'.csym.isSome = x.csym.isSome
  bsym : ∀ p ∈ x.bsym.getD [], p ∈ x'.bsym.getD []
  csym : ∀ p ∈ x.csym.getD [], p ∈ x'.csym.getD []
  rsym : ∀ p ∈ x.rsym, p ∈ x'.rsym

theorem Ctx.Extends.refl (x : Ctx) : x.Extends x := ⟨rfl, rfl, fun _ h => h, fun _ h => h, fun _ h => h⟩

theorem Ctx.Extends.trans {x y z : Ctx} (h₁ : x.Extends y) (h₂ : y.Extends z) : x.Extends z :=
  ⟨h₂.1.trans h₁.1, h₂.2.trans h₁.2, fun p hp => h₂.3 p (h₁.3 p hp), fun p hp => h₂.4 p (h₁.4 p hp),
    fun p hp => h₂.5 p (h₁.5 p hp)⟩

/-- What a statement does to the chains and to the code. -/
def Grown (x x' : Ctx) : Prop := x.Extends x' ∧ ∀ n rest, Goes n x.g (x.chains ++ rest) x'.g (x'.chains ++ rest)

theorem mem_gjmp (g : Gen) (t : Chain) : ∀ p ∈ t, p ∈ (gjmp t g).1 := by
  intro p hp
  rw [gjmp]
  split
  · exact hp
  · exact List.mem_cons_of_mem _ hp

section inversion

variable {last : Bool} {x x' : Ctx} {c : Cond} {s e : Stmt}

theorem if_eq (h : block (.if_ c s) last x = some x') :
    ∃ y, block s last { x with g := (gvtst true c [] x.g).2 } = some y ∧
      x' = { y with g := gsym (gvtst true c [] x.g).1 y.g } := by
  obtain ⟨y, hy, rfl⟩ := Option.map_eq_some_iff.mp h
  exact ⟨y, hy, rfl⟩

theorem if_else_eq (h : block (.if_else c s e) last x = some x') :
    ∃ y z, block s false { x with g := (gvtst true c [] x.g).2 } = some y ∧
      block e last { y with g := gsym (gvtst true c [] x.g).1 (gjmp [] y.g).2 } = some z ∧
      x' = { z with g := gsym (gjmp [] y.g).1 z.g } := by
  obtain ⟨y, hy, hrest⟩ := Option.bind_eq_some_iff.mp h
  obtain ⟨z, hz, rfl⟩ := Option.map_eq_some_iff.mp hrest
  exact ⟨y, z, hy, hz, rfl⟩

theorem while_eq (h : block (.while_ c s) last x = some x') :
    ∃ y, block s last ⟨(gvtst true c [] (gind x.g).2).2, some (gvtst true c [] (gind x.g).2).1, some [], x.rsym⟩ =
        some y ∧
      x' = ⟨gsym (y.bsym.getD []) (gsym_addr (y.csym.getD []) x.g.ind (gjmp_addr x.g.ind y.g)), x.bsym, x.csym,
        y.rsym⟩ := by
  obtain ⟨res, hres, rfl⟩ := Option.map_eq_some_iff.mp h
  obtain ⟨y, hy, rfl⟩ := Option.map_eq_some_iff.mp hres
  exact ⟨y, hy, rfl⟩

theorem do_eq (h : block (.do_ s c) last x = some x') :
    ∃ y, block s false ⟨(gind x.g).2, some [], some [], x.rsym⟩ = some y ∧
      x' = ⟨gsym (y.bsym.getD []) (gsym_addr (gvtst false c [] (gsym (y.csym.getD []) y.g)).1 x.g.ind
        (gvtst false c [] (gsym (y.csym.getD []) y.g)).2), x.bsym, x.csym, y.rsym⟩ := by
  obtain ⟨res, hres, rfl⟩ := Option.map_eq_some_iff.mp h
  obtain ⟨y, hy, rfl⟩ := Option.map_eq_some_iff.mp hres
  exact ⟨y, hy, rfl⟩

/-- The start of a `for`. -/
def for_init (init : Option Nat) (g : Gen) : Gen := init.elim g fun k => g.o (.instr (.act k))

theorem for_eq {init step : Option Nat} {c : Option Cond} (h : block (.for_ init c step s) last x = some x') :
    ∃ a d g y, for_head c step (for_init init x.g) = (a, d, g) ∧ block s false ⟨g, some a, some [], x.rsym⟩ = some y ∧
      x' = ⟨gsym (y.bsym.getD []) (gsym_addr (y.csym.getD []) d (gjmp_addr d y.g)), x.bsym, x.csym, y.rsym⟩ := by
  obtain ⟨res, hres, rfl⟩ := Option.map_eq_some_iff.mp h
  obtain ⟨y, hy, rfl⟩ := Option.map_eq_some_iff.mp hres
  exact ⟨_, _, _, y, rfl, hy, rfl⟩

theorem seq_eq {rest : Stmt} (h : block (.seq s rest) last x = some x') :
    ∃ y, block s (last && rest.isNil) x = some y ∧ block rest last y = some x' :=
  Option.bind_eq_some_iff.mp h

end inversion

section loops

variable {n d : Nat} {g g₁ : Gen} {a rest : Chain} {x y : Ctx}

/-- The end of a loop, where it goes back to the address `d`. -/
theorem goes_loop (hgoes : Goes n g (x.chains ++ rest) g₁ (a ++ (x.chains ++ rest)))
    (hgrown : Grown ⟨g₁, some a, some [], x.rsym⟩ y) :
    Goes n g (x.chains ++ rest)
      (gsym (y.bsym.getD []) (gsym_addr (y.csym.getD []) d (gjmp_addr d y.g)))
      ((⟨y.g, x.bsym, x.csym, y.rsym⟩ : Ctx).chains ++ rest) := by
  have hbody := hgrown.2 n (x.bsym.getD [] ++ (x.csym.getD [] ++ rest))
  refine hgoes.trans ((Goes.perm hbody (t := y.csym.getD [] ++ (y.bsym.getD [] ++
    (x.bsym.getD [] ++ (x.csym.getD [] ++ y.rsym) ++ rest))) ?_ ?_).trans ?_)
  · intro p
    simp only [Ctx.chains, Option.getD_some, List.count_append, List.count_nil]
    omega
  · intro p
    simp only [Ctx.chains, List.count_append]
    omega
  · exact (Goes.gjmp_addr d).trans ((Goes.gsym_addr _ d).trans (Goes.gsym _))

theorem goes_for_test (c : Option Cond) (l : Chain) : Goes n g l (for_test c g).2 ((for_test c g).1 ++ l) := by
  cases c with
  | none => exact Goes.refl
  | some c => exact Goes.gvtst true c []

theorem goes_for_head (c : Option Cond) (step : Option Nat) (l : Chain) :
    Goes n g l (for_head c step g).2.2 ((for_head c step g).1 ++ l) := by
  have hfirst := Goes.gind.trans (goes_for_test (n := n) (g := (gind g).2) c l)
  cases step with
  | none => exact hfirst
  | some k =>
    refine hfirst.trans ?_
    exact (Goes.gjmp []).trans (Goes.gind.trans ((Goes.o (.act k)).trans ((Goes.gjmp_addr _).trans (Goes.gsym _))))

end loops

/-- A statement leaves other chains alone. -/
theorem Grown.goes {x y : Ctx} (h : Grown x y) (n : Nat) (a rest : Chain) :
    Goes n x.g (a ++ (x.chains ++ rest)) y.g (a ++ (y.chains ++ rest)) := by
  refine (h.2 n (a ++ rest)).perm ?_ ?_
  · intro p
    simp only [List.count_append]
    omega
  · intro p
    simp only [List.count_append]
    omega

theorem block_grown {s : Stmt} {last : Bool} {x x' : Ctx} (h : block s last x = some x') : Grown x x' := by
  induction s generalizing last x x' with
  | nil =>
    cases h
    exact ⟨Ctx.Extends.refl x, fun _ _ => Goes.refl⟩
  | seq s rest ihs ihrest =>
    obtain ⟨y, hy, hx'⟩ := seq_eq h
    obtain ⟨hext₁, hgoes₁⟩ := ihs hy
    obtain ⟨hext₂, hgoes₂⟩ := ihrest hx'
    exact ⟨hext₁.trans hext₂, fun n l => (hgoes₁ n l).trans (hgoes₂ n l)⟩
  | compound body ih =>
    exact ih h
  | expr k =>
    cases h
    exact ⟨⟨rfl, rfl, fun _ h => h, fun _ h => h, fun _ h => h⟩, fun _ _ => Goes.o (.act k)⟩
  | if_ c s ih =>
    obtain ⟨y, hy, rfl⟩ := if_eq h
    have hgrown := ih hy
    refine ⟨⟨hgrown.1.1, hgrown.1.2, hgrown.1.3, hgrown.1.4, hgrown.1.5⟩, fun n l => ?_⟩
    have htest : Goes n x.g (x.chains ++ l) _ ((gvtst true c [] x.g).1 ++ (x.chains ++ l)) := Goes.gvtst true c []
    exact (htest.trans (hgrown.goes n _ l)).trans (Goes.gsym _)
  | if_else c s e ihs ihe =>
    obtain ⟨y, z, hy, hz, rfl⟩ := if_else_eq h
    have hs := ihs hy
    have he := ihe hz
    refine ⟨⟨he.1.1.trans hs.1.1, he.1.2.trans hs.1.2, fun p hp => he.1.3 p (hs.1.3 p hp),
      fun p hp => he.1.4 p (hs.1.4 p hp), fun p hp => he.1.5 p (hs.1.5 p hp)⟩, fun n l => ?_⟩
    have htest : Goes n x.g (x.chains ++ l) _ ((gvtst true c [] x.g).1 ++ (x.chains ++ l)) := Goes.gvtst true c []
    have hjump : Goes n y.g ((gvtst true c [] x.g).1 ++ (y.chains ++ l)) (gjmp [] y.g).2
        ((gvtst true c [] x.g).1 ++ ((gjmp [] y.g).1 ++ (y.chains ++ l))) := by
      refine (Goes.gjmp (l := (gvtst true c [] x.g).1 ++ (y.chains ++ l)) []).perm (fun _ => rfl) fun p => ?_
      simp only [List.count_append]
      omega
    have hlabel : Goes n (gjmp [] y.g).2 ((gvtst true c [] x.g).1 ++ ((gjmp [] y.g).1 ++ (y.chains ++ l)))
        (gsym (gvtst true c [] x.g).1 (gjmp [] y.g).2) ((gjmp [] y.g).1 ++ (y.chains ++ l)) := Goes.gsym _
    exact (((htest.trans (hs.goes n _ l)).trans (hjump.trans hlabel)).trans (he.goes n _ l)).trans (Goes.gsym _)
  | while_ c s ih =>
    obtain ⟨y, hy, rfl⟩ := while_eq h
    have hgrown := ih hy
    exact ⟨⟨rfl, rfl, fun _ h => h, fun _ h => h, hgrown.1.rsym⟩,
      fun n l => goes_loop (Goes.gind.trans (Goes.gvtst true c [])) hgrown⟩
  | do_ s c ih =>
    obtain ⟨y, hy, rfl⟩ := do_eq h
    have hgrown := ih hy
    refine ⟨⟨rfl, rfl, fun _ h => h, fun _ h => h, hgrown.1.rsym⟩, fun n l => ?_⟩
    obtain ⟨b, hb⟩ : ∃ b, b = y.csym.getD [] := ⟨_, rfl⟩
    obtain ⟨a, ha⟩ : ∃ a, a = y.bsym.getD [] := ⟨_, rfl⟩
    rw [← ha, ← hb]
    have hbody : Goes n (gind x.g).2 (x.chains ++ l) y.g
        (b ++ (a ++ ((⟨y.g, x.bsym, x.csym, y.rsym⟩ : Ctx).chains ++ l))) := by
      refine (hgrown.2 n (x.bsym.getD [] ++ (x.csym.getD [] ++ l))).perm (fun p => ?_) fun p => ?_
      · simp only [Ctx.chains, Option.getD_some, List.count_append, List.count_nil]
        omega
      · rw [ha, hb]
        simp only [Ctx.chains, List.count_append]
        omega
    have hjump : Goes n (gsym b y.g) (a ++ ((⟨y.g, x.bsym, x.csym, y.rsym⟩ : Ctx).chains ++ l))
        (gsym_addr (gvtst false c [] (gsym b y.g)).1 x.g.ind (gvtst false c [] (gsym b y.g)).2)
        (a ++ ((⟨y.g, x.bsym, x.csym, y.rsym⟩ : Ctx).chains ++ l)) :=
      (Goes.gvtst false c []).trans (Goes.gsym_addr _ _)
    exact ((Goes.gind.trans hbody).trans (Goes.gsym b)).trans (hjump.trans (Goes.gsym a))
  | for_ init c step s ih =>
    obtain ⟨a, d, g, y, hhead, hy, rfl⟩ := for_eq h
    have hgrown := ih hy
    have hinit (n : Nat) (l : Chain) : Goes n x.g l (for_init init x.g) l := by
      cases init with
      | none => exact Goes.refl
      | some k => exact Goes.o (.act k)
    refine ⟨⟨rfl, rfl, fun _ h => h, fun _ h => h, hgrown.1.rsym⟩, fun n l => goes_loop ((hinit n _).trans ?_) hgrown⟩
    have := goes_for_head (n := n) (g := for_init init x.g) c step (x.chains ++ l)
    rwa [hhead] at this
  | break_ =>
    obtain ⟨b, hb, rfl⟩ := Option.map_eq_some_iff.mp h
    refine ⟨⟨by rw [hb]; rfl, rfl, fun p hp => ?_, fun _ h => h, fun _ h => h⟩, fun n l => ?_⟩
    · rw [hb] at hp
      exact mem_gjmp x.g b p hp
    · refine (Goes.gjmp (l := x.csym.getD [] ++ x.rsym ++ l) b).perm (fun p => ?_) fun p => ?_
      · simp only [Ctx.chains, hb, Option.getD_some, List.count_append]
        omega
      · simp only [Ctx.chains, Option.getD_some, List.count_append]
        omega
  | continue_ =>
    obtain ⟨b, hb, rfl⟩ := Option.map_eq_some_iff.mp h
    refine ⟨⟨rfl, by rw [hb]; rfl, fun _ h => h, fun p hp => ?_, fun _ h => h⟩, fun n l => ?_⟩
    · rw [hb] at hp
      exact mem_gjmp x.g b p hp
    · refine (Goes.gjmp (l := x.bsym.getD [] ++ x.rsym ++ l) b).perm (fun p => ?_) fun p => ?_
      · simp only [Ctx.chains, hb, Option.getD_some, List.count_append]
        omega
      · simp only [Ctx.chains, Option.getD_some, List.count_append]
        omega
  | return_ k =>
    have hact (n : Nat) (l : Chain) : Goes n x.g l (k.elim x.g fun k => x.g.o (.instr (.act k))) l := by
      cases k with
      | none => exact Goes.refl
      | some k => exact Goes.o (.act k)
    obtain ⟨g, hg⟩ : ∃ g, g = k.elim x.g fun k => x.g.o (.instr (.act k)) := ⟨_, rfl⟩
    rw [← hg] at hact
    cases last with
    | true =>
      cases h
      rw [← hg]
      exact ⟨⟨rfl, rfl, fun _ h => h, fun _ h => h, fun _ h => h⟩, fun n l => (hact n _).trans (Goes.of_code rfl)⟩
    | false =>
      cases h
      rw [← hg]
      refine ⟨⟨rfl, rfl, fun _ h => h, fun _ h => h, mem_gjmp g x.rsym⟩, fun n l => (hact n _).trans ?_⟩
      have hjump : Goes n g (x.rsym ++ (x.bsym.getD [] ++ x.csym.getD [] ++ l)) (gjmp x.rsym g).2.code_off
          ((gjmp x.rsym g).1 ++ (x.bsym.getD [] ++ x.csym.getD [] ++ l)) := (Goes.gjmp x.rsym).trans (Goes.of_code rfl)
      refine hjump.perm (fun p => ?_) fun p => ?_
      · simp only [Ctx.chains, List.count_append]
        omega
      · simp only [Ctx.chains, List.count_append]
        omega

section runs

variable {σ : Type} {m : Meaning σ} {C : Nat → Option (Item Instr)} {n a L : Nat} {g : Gen} {t l : Chain} {s : σ}

theorem reach_instr {pc : Nat} {i : Instr} (h : C pc = some (.instr i)) :
    Reach m C ⟨pc, s⟩ (i.exec m ⟨pc, s⟩) :=
  Relation.ReflTransGen.single (by rw [step, h])

theorem moves_jump {pc : Nat} (h : C pc = some (.jump (some a))) : Moves m C ⟨pc, s⟩ ⟨a, s⟩ :=
  Relation.TransGen.single (by rw [step, h])

theorem reach_act (hg : g.off = false) (k : Nat) (hC : Completes C (g.o (.instr (.act k))).code) :
    Reach m C ⟨g.ind, s⟩ ⟨(g.o (.instr (.act k))).ind, m.act k s⟩ := by
  rw [o_of_live hg] at hC ⊢
  have hfetch : C g.ind = some (.instr (.act k)) := hC.instr (by simp [Gen.ind])
  have := reach_instr (m := m) (s := s) hfetch
  simpa [Gen.ind, Instr.exec] using this

/-- The jump of a live `gjmp` is taken. -/
theorem moves_gjmp (hg : g.off = false) (hL : ∀ p ∈ (gjmp t g).1, C p = some (.jump (some L))) :
    (gjmp t g).1 ≠ [] ∧ Moves m C ⟨g.ind, s⟩ ⟨L, s⟩ := by
  rw [gjmp_of_live hg] at hL ⊢
  exact ⟨List.cons_ne_nil _ _, moves_jump (hL _ List.mem_cons_self)⟩

theorem moves_gjmp_addr (hg : g.off = false) (hC : Completes C (gjmp_addr a g).code) :
    Moves m C ⟨g.ind, s⟩ ⟨a, s⟩ := by
  rw [gjmp_addr, o_of_live hg] at hC
  exact moves_jump (hC.jump (by simp [Gen.code_off, Gen.ind]))

/-- The test of a condition: the jump is taken unless the condition comes to `inv`. -/
theorem reach_gvtst (inv : Bool) (c : Cond) (hg : g.off = false) (hC : Completes C (gvtst inv c t g).2.code)
    (hL : ∀ p ∈ (gvtst inv c t g).1, C p = some (.jump (some L))) :
    if (c.eval m s).1 = inv then
      (gvtst inv c t g).2.off = false ∧ Reach m C ⟨g.ind, s⟩ ⟨(gvtst inv c t g).2.ind, (c.eval m s).2⟩
    else (gvtst inv c t g).1 ≠ [] ∧ Moves m C ⟨g.ind, s⟩ ⟨L, (c.eval m s).2⟩ := by
  cases c with
  | const b =>
    rw [gvtst] at hC hL ⊢
    by_cases hb : b = inv
    · have hne : ¬ (b != inv) = true := by simp [hb]
      rw [if_neg hne] at hC hL ⊢
      rw [if_pos (by exact hb)]
      exact ⟨hg, Relation.ReflTransGen.refl⟩
    · have hne : (b != inv) = true := bne_iff_ne.mpr hb
      rw [if_pos hne] at hC hL ⊢
      rw [if_neg (by exact hb)]
      exact moves_gjmp hg hL
  | test k =>
    rw [gvtst_of_live hg] at hC hL ⊢
    have hfetch : C g.ind = some (.instr (.test k inv)) := hC.append.instr (by simp [Gen.ind])
    have hfirst := reach_instr (m := m) (s := s) hfetch
    rw [Instr.exec] at hfirst
    by_cases htest : (m.test k s).1 = inv
    · rw [if_pos (by exact htest)]
      rw [if_pos htest] at hfirst
      exact ⟨rfl, by simpa [Gen.ind, Cond.eval] using hfirst⟩
    · rw [if_neg (by exact htest)]
      rw [if_neg htest] at hfirst
      exact ⟨List.cons_ne_nil _ _, Relation.TransGen.trans_right hfirst (moves_jump (hL _ List.mem_cons_self))⟩

/-- A label that the jumps of a chain lead to. -/
theorem jump_gsym_addr (hpending : PendingFrom n g.code (t ++ l)) (hC : Completes C (gsym_addr t a g).code) :
    ∀ p ∈ t, C p = some (.jump (some a)) :=
  (Completes.patch (fun p hp => ((hpending.mem_iff p).mp (List.mem_append_left l hp)).2) hC).2

theorem jump_gsym (hpending : PendingFrom n g.code (t ++ l)) (hC : Completes C (gsym t g).code) :
    ∀ p ∈ t, C p = some (.jump (some g.ind)) := by
  rw [gsym] at hC
  split at hC
  · rename_i ht
    rw [ht]
    exact fun p hp => (List.not_mem_nil hp).elim
  · exact jump_gsym_addr hpending hC

@[simp] theorem ind_gsym_addr (t : Chain) (a : Nat) (g : Gen) : (gsym_addr t a g).ind = g.ind := length_patch _ _ _

@[simp] theorem ind_gsym (t : Chain) (g : Gen) : (gsym t g).ind = g.ind := by
  rw [gsym]
  split
  · rfl
  · exact length_patch _ _ _

theorem off_gsym_of_live (t : Chain) (hg : g.off = false) : (gsym t g).off = false := by
  rw [gsym]
  split
  · exact hg
  · rfl

theorem off_gsym_of_ne (ht : t ≠ []) (g : Gen) : (gsym t g).off = false := by
  rw [gsym, if_neg ht]

end runs

/-- Where the outcomes of a statement lead: `LB`, `LC` and `LR` are what the chains of `break`, `continue`
    and `return` lead to. -/
def Arrives {σ : Type} (m : Meaning σ) (C : Nat → Option (Item Instr)) (x' : Ctx) (LB LC LR pc : Nat) (s : σ) :
    Out → σ → Prop
  | .normal, s' => x'.g.off = false ∧ Reach m C ⟨pc, s⟩ ⟨x'.g.ind, s'⟩
  | .brk, s' => x'.bsym.getD [] ≠ [] ∧ Reach m C ⟨pc, s⟩ ⟨LB, s'⟩
  | .cont, s' => x'.csym.getD [] ≠ [] ∧ Moves m C ⟨pc, s⟩ ⟨LC, s'⟩
  | .ret, s' => Reach m C ⟨pc, s⟩ ⟨LR, s'⟩

/-- A statement that is compiled where code is wanted, in a finished code. -/
structure Compiled (C : Nat → Option (Item Instr)) (n : Nat) (rest : Chain) (LB LC LR : Nat) (stmt : Stmt)
    (last : Bool) (x x' : Ctx) : Prop where
  eq : block stmt last x = some x'
  live : x.g.off = false
  le : n ≤ x.g.ind
  pending : PendingFrom n x.g.code (x.chains ++ rest)
  sound : last = true → stmt.Sound
  completes : Completes C x'.g.code
  brk : ∀ p ∈ x'.bsym.getD [], C p = some (.jump (some LB))
  cont : ∀ p ∈ x'.csym.getD [], C p = some (.jump (some LC))
  ret : ∀ p ∈ x'.rsym, C p = some (.jump (some LR))
  tail : last = true → stmt.ends_in_return = true → LR = x'.g.ind

section parts

variable {σ : Type} {m : Meaning σ} {C : Nat → Option (Item Instr)} {n LB LC LR : Nat} {rest : Chain} {last : Bool}
  {x x' : Ctx} {c : Cond} {a b : Stmt}

theorem Compiled.goes (h : Compiled C n rest LB LC LR a last x x') :
    Emits n x.g x'.g ∧ PendingFrom n x'.g.code (x'.chains ++ rest) :=
  (block_grown h.eq).2 n rest h.le h.pending

theorem Compiled.compound (h : Compiled C n rest LB LC LR (.compound a) last x x') :
    Compiled C n rest LB LC LR a false x x' :=
  ⟨h.eq, h.live, h.le, h.pending, fun h => (by cases h), h.completes, h.brk, h.cont, h.ret, fun h => (by cases h)⟩

theorem isNil_iff : a.isNil = true ↔ a = .nil := by
  cases a <;> simp [Stmt.isNil]

theorem Compiled.seq (h : Compiled C n rest LB LC LR (.seq a b) last x x') :
    ∃ y, Compiled C n rest LB LC LR a (last && b.isNil) x y ∧ y.Extends x' ∧
      (y.g.off = false → Compiled C n rest LB LC LR b last y x') := by
  obtain ⟨y, hy, hx'⟩ := seq_eq h.eq
  obtain ⟨hemits₁, hpending₁⟩ := (block_grown hy).2 n rest h.le h.pending
  have hle : n ≤ y.g.ind := h.le.trans hemits₁.ind_le
  have hext := (block_grown hx').1
  have hsound := h.sound
  have htail := h.tail
  rw [Stmt.Sound] at hsound
  rw [Stmt.ends_in_return] at htail
  refine ⟨y, ⟨hy, h.live, h.le, h.pending, fun hlast => ?_, ?_, fun p hp => h.brk p (hext.bsym p hp),
    fun p hp => h.cont p (hext.csym p hp), fun p hp => h.ret p (hext.rsym p hp), fun hlast hends => ?_⟩, hext,
    fun hlive => ⟨hx', hlive, hle, hpending₁, fun hlast => ?_, h.completes, h.brk, h.cont, h.ret,
      fun hlast hends => ?_⟩⟩
  · obtain ⟨hl, hnil⟩ := (Bool.and_eq_true _ _).mp hlast
    have := hsound hl
    rwa [if_pos hnil] at this
  · exact ((block_grown hx').2 n rest hle hpending₁).1.completes h.completes
  · obtain ⟨hl, hnil⟩ := (Bool.and_eq_true _ _).mp hlast
    rw [if_pos hnil] at htail
    rw [htail hl hends]
    rw [isNil_iff.mp hnil] at hx'
    cases hx'
    rfl
  · by_cases hnil : b.isNil = true
    · rw [isNil_iff.mp hnil]
      exact trivial
    · have := hsound hlast
      rwa [if_neg hnil] at this
  · by_cases hnil : b.isNil = true
    · rw [isNil_iff.mp hnil] at hends
      cases hends
    · rw [if_neg hnil] at htail
      exact htail hlast hends

/-- The end of a statement is a label more. -/
theorem Arrives.gsym {y : Ctx} {pc : Nat} {s s' : σ} {o : Out} (h : Arrives m C y LB LC LR pc s o s') (t : Chain) :
    Arrives m C { y with g := gsym t y.g } LB LC LR pc s o s' := by
  cases o with
  | normal => exact ⟨off_gsym_of_live t h.1, by rw [ind_gsym]; exact h.2⟩
  | brk => exact h
  | cont => exact h
  | ret => exact h

theorem Compiled.if_ (h : Compiled C n rest LB LC LR (.if_ c a) last x x') :
    ∃ g t y, x' = { y with g := gsym t y.g } ∧
      (g.off = false → Compiled C n (t ++ rest) LB LC LR a last { x with g := g } y) ∧
      ∀ s : σ, if (c.eval m s).1 = true then g.off = false ∧ Reach m C ⟨x.g.ind, s⟩ ⟨g.ind, (c.eval m s).2⟩
        else x'.g.off = false ∧ Reach m C ⟨x.g.ind, s⟩ ⟨x'.g.ind, (c.eval m s).2⟩ := by
  obtain ⟨y, hy, rfl⟩ := if_eq h.eq
  have htest : Goes n x.g (x.chains ++ rest) _ ((gvtst true c [] x.g).1 ++ (x.chains ++ rest)) :=
    Goes.gvtst true c []
  obtain ⟨hemits₁, hpending₁⟩ := htest h.le h.pending
  have hle₁ := h.le.trans hemits₁.ind_le
  obtain ⟨hemits₂, hpending₂⟩ := (block_grown hy).goes n (gvtst true c [] x.g).1 rest hle₁ hpending₁
  obtain ⟨hemits₃, -⟩ := Goes.gsym (g := y.g) (gvtst true c [] x.g).1 (hle₁.trans hemits₂.ind_le) hpending₂
  have hC₂ := hemits₃.completes h.completes
  have hlabel := jump_gsym hpending₂ h.completes
  refine ⟨_, _, y, rfl, fun hlive => ⟨hy, hlive, hle₁, ?_, h.sound, hC₂, h.brk, h.cont, h.ret, fun hlast hends => ?_⟩,
    fun s => ?_⟩
  · refine hpending₁.perm (List.perm_iff_count.mpr fun p => ?_)
    simp only [Ctx.chains, List.count_append]
    omega
  · rw [h.tail hlast hends, ind_gsym]
  · have hreach := reach_gvtst (m := m) (s := s) true c h.live (hemits₂.completes hC₂)
      (fun p hp => hlabel p hp)
    split at hreach
    · rename_i hc
      rw [if_pos hc]
      exact hreach
    · rename_i hc
      rw [if_neg hc, ind_gsym]
      exact ⟨off_gsym_of_ne hreach.1 _, hreach.2.to_reflTransGen⟩

theorem Compiled.if_else (h : Compiled C n rest LB LC LR (.if_else c a b) last x x') :
    ∃ g t y g' u z, x' = { z with g := gsym u z.g } ∧
      (g.off = false → Compiled C n (t ++ rest) LB LC LR a false { x with g := g } y) ∧
      (y.g.off = false → u ≠ [] ∧ ∀ s : σ, Reach m C ⟨y.g.ind, s⟩ ⟨x'.g.ind, s⟩) ∧
      (∀ p ∈ y.bsym.getD [], p ∈ x'.bsym.getD []) ∧ (∀ p ∈ y.csym.getD [], p ∈ x'.csym.getD []) ∧
      (g'.off = false → Compiled C n (u ++ rest) LB LC LR b last { y with g := g' } z) ∧
      ∀ s : σ, if (c.eval m s).1 = true then g.off = false ∧ Reach m C ⟨x.g.ind, s⟩ ⟨g.ind, (c.eval m s).2⟩
        else g'.off = false ∧ Reach m C ⟨x.g.ind, s⟩ ⟨g'.ind, (c.eval m s).2⟩ := by
  obtain ⟨y, z, hy, hz, rfl⟩ := if_else_eq h.eq
  have htest : Goes n x.g (x.chains ++ rest) _ ((gvtst true c [] x.g).1 ++ (x.chains ++ rest)) :=
    Goes.gvtst true c []
  obtain ⟨t, ht⟩ : ∃ t, t = (gvtst true c [] x.g).1 := ⟨_, rfl⟩
  obtain ⟨u, hu⟩ : ∃ u, u = (gjmp [] y.g).1 := ⟨_, rfl⟩
  have hjump : Goes n y.g (t ++ (y.chains ++ rest)) (gjmp [] y.g).2 (t ++ (u ++ (y.chains ++ rest))) := by
    rw [hu]
    refine (Goes.gjmp (l := t ++ (y.chains ++ rest)) []).perm (fun _ => rfl) fun p => ?_
    simp only [List.count_append]
    omega
  rw [← ht] at htest hz
  rw [← hu]
  obtain ⟨hemits₁, hpending₁⟩ := htest h.le h.pending
  have hle₁ := h.le.trans hemits₁.ind_le
  obtain ⟨hemits₂, hpending₂⟩ := (block_grown hy).goes n t rest hle₁ hpending₁
  have hle₂ := hle₁.trans hemits₂.ind_le
  obtain ⟨hemits₃, hpending₃⟩ := hjump hle₂ hpending₂
  have hle₃ := hle₂.trans hemits₃.ind_le
  obtain ⟨hemits₄, hpending₄⟩ := Goes.gsym (g := (gjmp [] y.g).2) t hle₃ hpending₃
  have hle₄ := hle₃.trans hemits₄.ind_le
  obtain ⟨hemits₅, hpending₅⟩ := (block_grown hz).goes n u rest hle₄ hpending₄
  obtain ⟨hemits₆, -⟩ := Goes.gsym (g := z.g) u (hle₄.trans hemits₅.ind_le) hpending₅
  have hC₅ := hemits₆.completes (by have := h.completes; rwa [← hu] at this)
  have hC₄ := hemits₅.completes hC₅
  have hC₂ := hemits₃.completes (hemits₄.completes hC₄)
  have hext := (block_grown hz).1
  have hbrk := h.brk
  have hcont := h.cont
  have hret := h.ret
  have hjoin : ∀ p ∈ u, C p = some (.jump (some z.g.ind)) :=
    jump_gsym hpending₅ (by have := h.completes; rwa [← hu] at this)
  refine ⟨_, t, y, _, u, z, rfl, fun hlive => ⟨hy, hlive, hle₁, ?_, fun h => (by cases h), hC₂,
    fun p hp => hbrk p (hext.bsym p hp), fun p hp => hcont p (hext.csym p hp), fun p hp => hret p (hext.rsym p hp),
    fun h => (by cases h)⟩, fun hlive => ?_, hext.bsym, hext.csym,
    fun hlive => ⟨hz, hlive, hle₄, ?_, h.sound, hC₅, hbrk, hcont, hret, fun hlast hends => ?_⟩, fun s => ?_⟩
  · refine hpending₁.perm (List.perm_iff_count.mpr fun p => ?_)
    simp only [Ctx.chains, List.count_append]
    omega
  · have hreach (s : σ) := moves_gjmp (m := m) (s := s) (t := []) hlive (by rw [← hu]; exact hjoin)
    rw [ind_gsym]
    refine ⟨?_, fun s => (hreach s).2.to_reflTransGen⟩
    rw [hu, gjmp_of_live hlive]
    exact List.cons_ne_nil _ _
  · refine hpending₄.perm (List.perm_iff_count.mpr fun p => ?_)
    simp only [Ctx.chains, List.count_append]
    omega
  · rw [h.tail hlast hends, ind_gsym]
  · have hreach := reach_gvtst (m := m) (s := s) true c h.live (hemits₂.completes hC₂)
      (by rw [← ht]; exact jump_gsym hpending₃ hC₄)
    split at hreach
    · rename_i hc
      rw [if_pos hc]
      exact hreach
    · rename_i hc
      rw [if_neg hc, ind_gsym]
      exact ⟨off_gsym_of_ne (by rw [ht]; exact hreach.1) _, hreach.2.to_reflTransGen⟩

theorem sound_of_ends (h : a.ends_in_return = false) : a.Sound := by
  induction a with
  | nil | compound | expr | do_ | for_ | break_ | continue_ | return_ => exact trivial
  | if_ c a ih => exact ih h
  | if_else c a b _ ih => exact ih h
  | while_ c a _ => exact h
  | seq a b iha ihb =>
    rw [Stmt.ends_in_return] at h
    rw [Stmt.Sound]
    split
    · rename_i hnil
      rw [if_pos hnil] at h
      exact iha h
    · rename_i hnil
      rw [if_neg hnil] at h
      exact ihb h

/-- The end of a `while` or a `for`, where the code goes back to the address `d`. -/
theorem loop_end {d : Nat} {y : Ctx} {g' : Gen} {l : Chain} (hle : n ≤ y.g.ind)
    (hpending : PendingFrom n y.g.code (y.chains ++ l))
    (hg' : g' = gsym (y.bsym.getD []) (gsym_addr (y.csym.getD []) d (gjmp_addr d y.g)))
    (hC : Completes C g'.code) :
    Completes C y.g.code ∧ (∀ p ∈ y.bsym.getD [], C p = some (.jump (some g'.ind))) ∧
      (∀ p ∈ y.csym.getD [], C p = some (.jump (some d))) ∧
      (y.g.off = false → ∀ s : σ, Moves m C ⟨y.g.ind, s⟩ ⟨d, s⟩) ∧ (y.bsym.getD [] ≠ [] → g'.off = false) := by
  have hperm : PendingFrom n y.g.code (y.csym.getD [] ++ (y.bsym.getD [] ++ (y.rsym ++ l))) := by
    refine hpending.perm (List.perm_iff_count.mpr fun p => ?_)
    simp only [Ctx.chains, List.count_append]
    omega
  obtain ⟨hemits₁, hpending₁⟩ := Goes.gjmp_addr (g := y.g) d hle hperm
  have hle₁ := hle.trans hemits₁.ind_le
  obtain ⟨hemits₂, hpending₂⟩ := Goes.gsym_addr (g := gjmp_addr d y.g) (y.csym.getD []) d hle₁ hpending₁
  have hle₂ := hle₁.trans hemits₂.ind_le
  obtain ⟨hemits₃, -⟩ := Goes.gsym (y.bsym.getD []) hle₂ hpending₂
  rw [hg'] at hC
  have hC₂ := hemits₃.completes hC
  have hC₁ := hemits₂.completes hC₂
  refine ⟨hemits₁.completes hC₁, ?_, jump_gsym_addr hpending₁ hC₂, fun hlive s => moves_gjmp_addr hlive hC₁, ?_⟩
  · rw [hg', ind_gsym]
    exact jump_gsym hpending₂ hC
  · intro hne
    rw [hg']
    exact off_gsym_of_ne hne _

/-- How a loop goes on after its body, when `break` leads to its end and `continue` to `d`. -/
theorem Arrives.leave {y : Ctx} {pc d : Nat} {s s' : σ} {o o' : Out}
    (h : Arrives m C y x'.g.ind d LR pc s o s') (hoff : y.bsym.getD [] ≠ [] → x'.g.off = false)
    (ho : o.leave = some o') : Arrives m C x' LB LC LR pc s o' s' := by
  cases o with
  | normal => cases ho
  | cont => cases ho
  | brk =>
    cases ho
    exact ⟨hoff h.1, h.2⟩
  | ret =>
    cases ho
    exact h

theorem Arrives.next {y : Ctx} {pc d LB' : Nat} {s s' : σ} {o : Out} (h : Arrives m C y LB' d LR pc s o s')
    (hback : y.g.off = false → ∀ s : σ, Moves m C ⟨y.g.ind, s⟩ ⟨d, s⟩) (ho : o.leave = none) :
    Moves m C ⟨pc, s⟩ ⟨d, s'⟩ := by
  cases o with
  | normal => exact Relation.TransGen.trans_right h.2 (hback h.1 s')
  | cont => exact h.2
  | brk => cases ho
  | ret => cases ho

/-- The same where `continue` leads to the end of the body. -/
theorem Arrives.end {y : Ctx} {pc LB' : Nat} {s s' : σ} {o : Out} (h : Arrives m C y LB' y.g.ind LR pc s o s')
    (ho : o.leave = none) : (y.g.off = false ∨ y.csym.getD [] ≠ []) ∧ Reach m C ⟨pc, s⟩ ⟨y.g.ind, s'⟩ := by
  cases o with
  | normal => exact ⟨Or.inl h.1, h.2⟩
  | cont => exact ⟨Or.inr h.1, h.2.to_reflTransGen⟩
  | brk => cases ho
  | ret => cases ho

/-- What comes after a statement that is left by a jump. -/
theorem Arrives.jumped {y : Ctx} {pc : Nat} {s s' : σ} {o : Out} (h : Arrives m C y LB LC LR pc s o s')
    (ho : o ≠ .normal) (hbsym : ∀ p ∈ y.bsym.getD [], p ∈ x'.bsym.getD [])
    (hcsym : ∀ p ∈ y.csym.getD [], p ∈ x'.csym.getD []) : Arrives m C x' LB LC LR pc s o s' := by
  cases o with
  | normal => exact (ho rfl).elim
  | brk => exact ⟨List.ne_nil_of_mem (hbsym _ (List.head_mem h.1)), h.2⟩
  | cont => exact ⟨List.ne_nil_of_mem (hcsym _ (List.head_mem h.1)), h.2⟩
  | ret => exact h

theorem Arrives.of_reach {pc pc' : Nat} {s s₁ s' : σ} {o : Out} (hreach : Reach m C ⟨pc, s⟩ ⟨pc', s₁⟩)
    (h : Arrives m C x' LB LC LR pc' s₁ o s') : Arrives m C x' LB LC LR pc s o s' := by
  cases o with
  | normal => exact ⟨h.1, hreach.trans h.2⟩
  | brk => exact ⟨h.1, hreach.trans h.2⟩
  | cont => exact ⟨h.1, Relation.TransGen.trans_right hreach h.2⟩
  | ret => exact hreach.trans h

/-- A loop with its condition `cond` at the start, and the jump to `d` after its body. -/
theorem Compiled.loop {stmt : Stmt} {last' : Bool} {g : Gen} {t : Chain} {d : Nat} {y : Ctx} {cond : σ → Bool × σ}
    (h : Compiled C n rest LB LC LR stmt last x x')
    (hgoes : Goes n x.g (x.chains ++ rest) g (t ++ (x.chains ++ rest)))
    (hy : block a last' ⟨g, some t, some [], x.rsym⟩ = some y)
    (hx' : x' = ⟨gsym (y.bsym.getD []) (gsym_addr (y.csym.getD []) d (gjmp_addr d y.g)), x.bsym, x.csym, y.rsym⟩)
    (hends : last' = true → a.ends_in_return = false)
    (hhead : Completes C g.code → (∀ p ∈ t, C p = some (.jump (some x'.g.ind))) → ∀ s : σ,
      if (cond s).1 = true then g.off = false ∧ Reach m C ⟨x.g.ind, s⟩ ⟨g.ind, (cond s).2⟩
      else t ≠ [] ∧ Moves m C ⟨x.g.ind, s⟩ ⟨x'.g.ind, (cond s).2⟩) :
    ∃ l, (g.off = false → Compiled C n l x'.g.ind d LR a last' ⟨g, some t, some [], x.rsym⟩ y) ∧
      (∀ s : σ, if (cond s).1 = true then g.off = false ∧ Reach m C ⟨x.g.ind, s⟩ ⟨g.ind, (cond s).2⟩
        else x'.g.off = false ∧ Reach m C ⟨x.g.ind, s⟩ ⟨x'.g.ind, (cond s).2⟩) ∧
      (y.g.off = false → ∀ s : σ, Moves m C ⟨y.g.ind, s⟩ ⟨d, s⟩) ∧ (y.bsym.getD [] ≠ [] → x'.g.off = false) ∧
      Completes C g.code ∧ ∀ p ∈ t, C p = some (.jump (some x'.g.ind)) := by
  obtain ⟨hemits₁, hpending₁⟩ := hgoes h.le h.pending
  have hle₁ := h.le.trans hemits₁.ind_le
  have hgrown := block_grown hy
  have hpending₁' : PendingFrom n g.code ((⟨g, some t, some [], x.rsym⟩ : Ctx).chains ++
      (x.bsym.getD [] ++ (x.csym.getD [] ++ rest))) := by
    refine hpending₁.perm (List.perm_iff_count.mpr fun p => ?_)
    simp only [Ctx.chains, Option.getD_some, List.count_append, List.count_nil]
    omega
  obtain ⟨hemits₂, hpending₂⟩ := hgrown.2 n _ hle₁ hpending₁'
  obtain ⟨hC₂, hbrk, hcont, hback, hoff⟩ := loop_end (m := m) (hle₁.trans hemits₂.ind_le) hpending₂
    (congrArg Ctx.g hx') h.completes
  have hrsym : y.rsym = x'.rsym := by rw [hx']
  have hC := hemits₂.completes hC₂
  have hleave : ∀ p ∈ t, C p = some (.jump (some x'.g.ind)) := fun p hp => hbrk p (hgrown.1.bsym p hp)
  refine ⟨_, fun hlive => ⟨hy, hlive, hle₁, hpending₁', fun hlast => sound_of_ends (hends hlast), hC₂, hbrk, hcont,
    fun p hp => h.ret p (by rwa [← hrsym]), fun hlast hret => ?_⟩, fun s => ?_, hback, hoff, hC, hleave⟩
  · rw [hends hlast] at hret
    cases hret
  · have hreach := hhead hC hleave s
    split at hreach
    · rename_i hc
      rw [if_pos hc]
      exact hreach
    · rename_i hc
      rw [if_neg hc]
      refine ⟨hoff fun hnil => hreach.1 (List.eq_nil_iff_forall_not_mem.mpr fun p hp => ?_),
        hreach.2.to_reflTransGen⟩
      have := hgrown.1.bsym p hp
      rw [hnil] at this
      exact List.not_mem_nil this

theorem Compiled.while_ (h : Compiled C n rest LB LC LR (.while_ c a) last x x') :
    ∃ g t l y, (g.off = false → Compiled C n l x'.g.ind x.g.ind LR a last ⟨g, some t, some [], x.rsym⟩ y) ∧
      (∀ s : σ, if (c.eval m s).1 = true then g.off = false ∧ Reach m C ⟨x.g.ind, s⟩ ⟨g.ind, (c.eval m s).2⟩
        else x'.g.off = false ∧ Reach m C ⟨x.g.ind, s⟩ ⟨x'.g.ind, (c.eval m s).2⟩) ∧
      (y.g.off = false → ∀ s : σ, Moves m C ⟨y.g.ind, s⟩ ⟨x.g.ind, s⟩) ∧
      (y.bsym.getD [] ≠ [] → x'.g.off = false) := by
  obtain ⟨y, hy, hx'⟩ := while_eq h.eq
  obtain ⟨l, hbody, htest, hback, hoff, -⟩ := h.loop (m := m) (Goes.gind.trans (Goes.gvtst true c [])) hy hx' h.sound
    fun hC hleave s => reach_gvtst (m := m) (s := s) true c (g := (gind x.g).2) rfl hC hleave
  exact ⟨_, _, l, y, hbody, htest, hback, hoff⟩

theorem reach_for_test {g : Gen} {L : Nat} (c : Option Cond) (hg : g.off = false)
    (hC : Completes C (for_test c g).2.code) (hL : ∀ p ∈ (for_test c g).1, C p = some (.jump (some L))) (s : σ) :
    if (m.holds? c s).1 = true then
      (for_test c g).2.off = false ∧ Reach m C ⟨g.ind, s⟩ ⟨(for_test c g).2.ind, (m.holds? c s).2⟩
    else (for_test c g).1 ≠ [] ∧ Moves m C ⟨g.ind, s⟩ ⟨L, (m.holds? c s).2⟩ := by
  cases c with
  | none => exact ⟨hg, Relation.ReflTransGen.refl⟩
  | some c => exact reach_gvtst true c hg hC hL

/-- The head of a `for`: the condition leads to the body or to `L`, and the step leads back to it. -/
theorem reach_for_head {g g' : Gen} {t l : Chain} {d L : Nat} (c : Option Cond) (step : Option Nat)
    (hle : n ≤ g.ind) (hpending : PendingFrom n g.code l) (hhead : for_head c step g = (t, d, g'))
    (hC : Completes C g'.code) (hL : ∀ p ∈ t, C p = some (.jump (some L))) :
    (∀ s : σ, if (m.holds? c s).1 = true then g'.off = false ∧ Reach m C ⟨g.ind, s⟩ ⟨g'.ind, (m.holds? c s).2⟩
      else t ≠ [] ∧ Moves m C ⟨g.ind, s⟩ ⟨L, (m.holds? c s).2⟩) ∧
      ∀ s : σ, Reach m C ⟨d, s⟩ ⟨g.ind, m.act? step s⟩ := by
  obtain ⟨g₂, hg₂⟩ : ∃ g₂, g₂ = (for_test c (gind g).2).2 := ⟨_, rfl⟩
  have hgoes := Goes.gind.trans (goes_for_test (n := n) (g := (gind g).2) c l)
  rw [← hg₂] at hgoes
  obtain ⟨hemits₂, hpending₂⟩ := hgoes hle hpending
  have hle₂ := hle.trans hemits₂.ind_le
  cases step with
  | none =>
    cases hhead
    exact ⟨fun s => reach_for_test c (g := (gind g).2) rfl hC hL s, fun s => Relation.ReflTransGen.refl⟩
  | some k =>
    obtain ⟨e, he⟩ : ∃ e, e = (gjmp [] g₂).1 := ⟨_, rfl⟩
    obtain ⟨g₄, hg₄⟩ : ∃ g₄, g₄ = (gind (gjmp [] g₂).2).2 := ⟨_, rfl⟩
    have hhead' : ((for_test c (gind g).2).1, g₄.ind, gsym e (gjmp_addr g.ind (g₄.o (.instr (.act k))))) =
        (t, d, g') := by
      rw [← hhead, he, hg₄, hg₂]
      rfl
    obtain ⟨rfl, hrest⟩ := Prod.mk.inj hhead'
    obtain ⟨rfl, rfl⟩ := Prod.mk.inj hrest
    have hjump : Goes n g₂ ((for_test c (gind g).2).1 ++ l) g₄ (e ++ ((for_test c (gind g).2).1 ++ l)) := by
      rw [he, hg₄]
      exact (Goes.gjmp []).trans Goes.gind
    obtain ⟨hemits₄, hpending₄⟩ := hjump hle₂ hpending₂
    have hle₄ := hle₂.trans hemits₄.ind_le
    obtain ⟨hemits₅, hpending₅⟩ := Goes.o (g := g₄) (.act k) hle₄ hpending₄
    have hle₅ := hle₄.trans hemits₅.ind_le
    obtain ⟨hemits₆, hpending₆⟩ := Goes.gjmp_addr (g := g₄.o (.instr (.act k))) g.ind hle₅ hpending₅
    obtain ⟨hemits₇, -⟩ := Goes.gsym e (hle₅.trans hemits₆.ind_le) hpending₆
    have hC₆ := hemits₇.completes hC
    have hC₅ := hemits₆.completes hC₆
    have hC₂ := hemits₄.completes (hemits₅.completes hC₅)
    have hlabel := jump_gsym hpending₆ hC
    refine ⟨fun s => ?_, fun s => ?_⟩
    · have hreach := reach_for_test (m := m) c (g := (gind g).2) rfl (by rwa [← hg₂]) hL s
      rw [← hg₂] at hreach
      split at hreach
      · rename_i hc
        rw [if_pos hc, ind_gsym]
        have hover := moves_gjmp (m := m) (s := (m.holds? c s).2) (t := []) hreach.1 (by rw [← he]; exact hlabel)
        rw [← he] at hover
        exact ⟨off_gsym_of_ne hover.1 _, hreach.2.trans hover.2.to_reflTransGen⟩
      · rename_i hc
        rw [if_neg hc]
        exact hreach
    · have hlive : g₄.off = false := by rw [hg₄]; rfl
      exact (reach_act hlive k hC₅).trans (moves_gjmp_addr (by rw [off_o]; exact hlive) hC₆).to_reflTransGen

theorem Compiled.after_init {k : Nat} {c : Option Cond} {step : Option Nat}
    (h : Compiled C n rest LB LC LR (.for_ (some k) c step a) last x x') :
    Compiled C n rest LB LC LR (.for_ none c step a) last { x with g := x.g.o (.instr (.act k)) } x' ∧
      ∀ s : σ, Reach m C ⟨x.g.ind, s⟩ ⟨(x.g.o (.instr (.act k))).ind, m.act k s⟩ := by
  obtain ⟨hemits, hpending⟩ := Goes.o (g := x.g) (.act k) h.le h.pending
  have hlive : (x.g.o (.instr (.act k))).off = false := by
    rw [off_o]
    exact h.live
  have hrest : Compiled C n rest LB LC LR (.for_ none c step a) last { x with g := x.g.o (.instr (.act k)) } x' :=
    ⟨h.eq, hlive, h.le.trans hemits.ind_le, hpending, fun _ => trivial, h.completes, h.brk, h.cont, h.ret,
      fun _ h => (by cases h)⟩
  exact ⟨hrest, fun s => reach_act h.live k (hrest.goes.1.completes h.completes)⟩

theorem Compiled.for_ {c : Option Cond} {step : Option Nat}
    (h : Compiled C n rest LB LC LR (.for_ none c step a) last x x') :
    ∃ g t d l y, (g.off = false → Compiled C n l x'.g.ind d LR a false ⟨g, some t, some [], x.rsym⟩ y) ∧
      (∀ s : σ, if (m.holds? c s).1 = true then g.off = false ∧ Reach m C ⟨x.g.ind, s⟩ ⟨g.ind, (m.holds? c s).2⟩
        else x'.g.off = false ∧ Reach m C ⟨x.g.ind, s⟩ ⟨x'.g.ind, (m.holds? c s).2⟩) ∧
      (∀ s : σ, Reach m C ⟨d, s⟩ ⟨x.g.ind, m.act? step s⟩) ∧
      (y.g.off = false → ∀ s : σ, Moves m C ⟨y.g.ind, s⟩ ⟨d, s⟩) ∧ (y.bsym.getD [] ≠ [] → x'.g.off = false) := by
  obtain ⟨t, d, g, y, hhead, hy, hx'⟩ := for_eq h.eq
  have hgoes := goes_for_head (n := n) (g := for_init none x.g) c step (x.chains ++ rest)
  rw [hhead] at hgoes
  have hrun (hC : Completes C g.code) (hleave : ∀ p ∈ t, C p = some (.jump (some x'.g.ind))) :=
    reach_for_head (m := m) c step h.le h.pending hhead hC hleave
  obtain ⟨l, hbody, htest, hback, hoff, hC, hleave⟩ := h.loop (m := m) hgoes hy hx' (fun h => (by cases h))
    fun hC hleave => (hrun hC hleave).1
  exact ⟨g, t, d, l, y, hbody, htest, (hrun hC hleave).2, hback, hoff⟩

theorem Compiled.do_ (h : Compiled C n rest LB LC LR (.do_ a c) last x x') :
    ∃ l y, Compiled C n l x'.g.ind y.g.ind LR a false ⟨(gind x.g).2, some [], some [], x.rsym⟩ y ∧
      (∀ s : σ, y.g.off = false ∨ y.csym.getD [] ≠ [] →
        if (c.eval m s).1 = true then Moves m C ⟨y.g.ind, s⟩ ⟨x.g.ind, (c.eval m s).2⟩
        else x'.g.off = false ∧ Reach m C ⟨y.g.ind, s⟩ ⟨x'.g.ind, (c.eval m s).2⟩) ∧
      (y.bsym.getD [] ≠ [] → x'.g.off = false) := by
  obtain ⟨y, hy, hx'⟩ := do_eq h.eq
  have hgrown := block_grown hy
  have hpending₁ : PendingFrom n x.g.code ((⟨(gind x.g).2, some [], some [], x.rsym⟩ : Ctx).chains ++
      (x.bsym.getD [] ++ (x.csym.getD [] ++ rest))) := by
    refine h.pending.perm (List.perm_iff_count.mpr fun p => ?_)
    simp only [Ctx.chains, Option.getD_some, List.count_append, List.count_nil]
    omega
  obtain ⟨hemits₂, hpending₂⟩ := hgrown.2 n _ h.le hpending₁
  have hle₂ := h.le.trans hemits₂.ind_le
  have hpending₂' : PendingFrom n y.g.code (y.csym.getD [] ++ (y.bsym.getD [] ++ (y.rsym ++
      (x.bsym.getD [] ++ (x.csym.getD [] ++ rest))))) := by
    refine hpending₂.perm (List.perm_iff_count.mpr fun p => ?_)
    simp only [Ctx.chains, List.count_append]
    omega
  obtain ⟨g₃, hg₃⟩ : ∃ g₃, g₃ = gsym (y.csym.getD []) y.g := ⟨_, rfl⟩
  have hlabel (k : Chain) : Goes n y.g (y.csym.getD [] ++ k) g₃ k := by
    rw [hg₃]
    exact Goes.gsym (y.csym.getD [])
  obtain ⟨hemits₃, hpending₃⟩ := hlabel _ hle₂ hpending₂'
  have hle₃ := hle₂.trans hemits₃.ind_le
  obtain ⟨hemits₄, hpending₄⟩ := Goes.gvtst (g := g₃) false c [] hle₃ hpending₃
  have hle₄ := hle₃.trans hemits₄.ind_le
  obtain ⟨hemits₅, hpending₅⟩ := Goes.gsym_addr (g := (gvtst false c [] g₃).2) (gvtst false c [] g₃).1 x.g.ind hle₄
    hpending₄
  obtain ⟨hemits₆, -⟩ := Goes.gsym (y.bsym.getD []) (hle₄.trans hemits₅.ind_le) hpending₅
  have hx'g : x'.g = gsym (y.bsym.getD []) (gsym_addr (gvtst false c [] g₃).1 x.g.ind (gvtst false c [] g₃).2) := by
    rw [hx', hg₃]
  have hind : x'.g.ind = (gvtst false c [] g₃).2.ind := by rw [hx'g, ind_gsym, ind_gsym_addr]
  have hC := h.completes
  rw [hx'g] at hC
  have hC₅ := hemits₆.completes hC
  have hC₄ := hemits₅.completes hC₅
  have hC₃ := hemits₄.completes hC₄
  have hbrk : ∀ p ∈ y.bsym.getD [], C p = some (.jump (some x'.g.ind)) := by
    rw [hx'g, ind_gsym]
    exact jump_gsym hpending₅ hC
  have hrsym : y.rsym = x'.rsym := by rw [hx']
  have hcont : ∀ p ∈ y.csym.getD [], C p = some (.jump (some y.g.ind)) :=
    jump_gsym hpending₂' (by rwa [hg₃] at hC₃)
  refine ⟨_, y, ⟨hy, rfl, h.le, hpending₁, fun h => (by cases h), hemits₃.completes hC₃, hbrk, hcont,
    fun p hp => h.ret p (by rwa [← hrsym]), fun h => (by cases h)⟩, fun s hlive => ?_, fun hne => ?_⟩
  · have hlive₃ : g₃.off = false := by
      rw [hg₃]
      obtain hlive | hne := hlive
      · exact off_gsym_of_live _ hlive
      · exact off_gsym_of_ne hne _
    have hind₃ : g₃.ind = y.g.ind := by rw [hg₃, ind_gsym]
    have hreach := reach_gvtst (m := m) (s := s) false c hlive₃ hC₄ (jump_gsym_addr hpending₄ hC₅)
    rw [hind₃] at hreach
    cases hc : (c.eval m s).1 with
    | true =>
      rw [if_neg (by rw [hc]; exact Bool.noConfusion)] at hreach
      rw [if_pos rfl]
      exact hreach.2
    | false =>
      rw [if_pos hc] at hreach
      rw [if_neg Bool.false_ne_true, hind]
      refine ⟨?_, hreach.2⟩
      rw [hx'g]
      exact off_gsym_of_live _ hreach.1
  · rw [hx'g]
    exact off_gsym_of_ne hne _

end parts

theorem block_run {σ : Type} {m : Meaning σ} {C : Nat → Option (Item Instr)} {stmt : Stmt} {s s' : σ} {o : Out}
    (h : Exec m stmt s o s') {n LB LC LR : Nat} {rest : Chain} {last : Bool} {x x' : Ctx}
    (hc : Compiled C n rest LB LC LR stmt last x x') : Arrives m C x' LB LC LR x.g.ind s o s' := by
  induction h generalizing n LB LC LR rest last x x' with
  | nil =>
    cases hc.eq
    exact ⟨hc.live, Relation.ReflTransGen.refl⟩
  | seq h₁ h₂ ih₁ ih₂ =>
    obtain ⟨y, hfirst, -, hsecond⟩ := hc.seq
    obtain ⟨hlive, hreach⟩ := ih₁ hfirst
    exact (ih₂ (hsecond hlive)).of_reach hreach
  | seq_out h ho ih =>
    obtain ⟨y, hfirst, hext, -⟩ := hc.seq
    exact (ih hfirst).jumped ho hext.bsym hext.csym
  | compound h ih =>
    exact ih hc.compound
  | expr =>
    have hcompletes := hc.completes
    cases hc.eq
    exact ⟨by rw [off_o]; exact hc.live, reach_act hc.live _ hcompletes⟩
  | @if_true c a s s₁ s₂ o hcond h ih =>
    obtain ⟨g, t, y, hx', hbody, htest⟩ := hc.if_ (m := m)
    have hin := htest s
    rw [hcond] at hin
    rw [hx']
    exact ((ih (hbody hin.1)).gsym t).of_reach hin.2
  | @if_false c a s s₁ hcond =>
    obtain ⟨g, t, y, hx', hbody, htest⟩ := hc.if_ (m := m)
    have hout := htest s
    rw [hcond] at hout
    exact hout
  | @if_else_true c a b s s₁ s₂ o hcond h ih =>
    obtain ⟨g, t, y, g', u, z, hx', hbody, hjoin, hbsym, hcsym, -, htest⟩ := hc.if_else (m := m)
    have hin := htest s
    rw [hcond] at hin
    have harrives := ih (hbody hin.1)
    by_cases ho : o = .normal
    · subst ho
      obtain ⟨hne, hreach⟩ := hjoin harrives.1
      refine ⟨?_, (hin.2.trans harrives.2).trans (hreach s₂)⟩
      rw [hx']
      exact off_gsym_of_ne hne _
    · exact (harrives.jumped ho hbsym hcsym).of_reach hin.2
  | @if_else_false c a b s s₁ s₂ o hcond h ih =>
    obtain ⟨g, t, y, g', u, z, hx', -, -, -, -, hbody, htest⟩ := hc.if_else (m := m)
    have hin := htest s
    rw [hcond] at hin
    rw [hx']
    exact ((ih (hbody hin.1)).gsym u).of_reach hin.2
  | @while_end c a s s₁ hcond =>
    obtain ⟨g, t, l, y, hbody, htest, hback, hoff⟩ := hc.while_ (m := m)
    have hout := htest s
    rw [hcond] at hout
    exact hout
  | @while_leave c a s s₁ s₂ o o' hcond h ho ih =>
    obtain ⟨g, t, l, y, hbody, htest, hback, hoff⟩ := hc.while_ (m := m)
    have hin := htest s
    rw [hcond] at hin
    exact ((ih (hbody hin.1)).leave hoff ho).of_reach hin.2
  | @while_next c a s s₁ s₂ s₃ o o' hcond h ho hnext ih ihnext =>
    obtain ⟨g, t, l, y, hbody, htest, hback, hoff⟩ := hc.while_ (m := m)
    have hin := htest s
    rw [hcond] at hin
    exact (ihnext hc).of_reach (hin.2.trans ((ih (hbody hin.1)).next hback ho).to_reflTransGen)
  | do_leave h ho ih =>
    obtain ⟨l, y, hbody, htest, hoff⟩ := hc.do_ (m := m)
    exact (ih hbody).leave hoff ho
  | @do_end c a s s₁ s₂ o h ho hcond ih =>
    obtain ⟨l, y, hbody, htest, hoff⟩ := hc.do_ (m := m)
    obtain ⟨hlive, hend⟩ := (ih hbody).end ho
    have hout := htest s₁ hlive
    rw [hcond] at hout
    exact ⟨hout.1, hend.trans hout.2⟩
  | @do_next c a s s₁ s₂ s₃ o o' h ho hcond hnext ih ihnext =>
    obtain ⟨l, y, hbody, htest, hoff⟩ := hc.do_ (m := m)
    obtain ⟨hlive, hend⟩ := (ih hbody).end ho
    have hagain := htest s₁ hlive
    rw [hcond] at hagain
    exact (ihnext hc).of_reach (hend.trans hagain.to_reflTransGen)
  | @for_init k c e a s s₁ o h ih =>
    obtain ⟨hrest, hreach⟩ := hc.after_init (m := m)
    exact (ih hrest).of_reach (hreach s)
  | @for_end c e a s s₁ hcond =>
    obtain ⟨g, t, d, l, y, hbody, htest, hstep, hback, hoff⟩ := hc.for_ (m := m)
    have hout := htest s
    rw [hcond] at hout
    exact hout
  | @for_leave c e a s s₁ s₂ o o' hcond h ho ih =>
    obtain ⟨g, t, d, l, y, hbody, htest, hstep, hback, hoff⟩ := hc.for_ (m := m)
    have hin := htest s
    rw [hcond] at hin
    exact ((ih (hbody hin.1)).leave hoff ho).of_reach hin.2
  | @for_next c e a s s₁ s₂ s₃ o o' hcond h ho hnext ih ihnext =>
    obtain ⟨g, t, d, l, y, hbody, htest, hstep, hback, hoff⟩ := hc.for_ (m := m)
    have hin := htest s
    rw [hcond] at hin
    exact (ihnext hc).of_reach ((hin.2.trans ((ih (hbody hin.1)).next hback ho).to_reflTransGen).trans (hstep s₂))
  | break_ =>
    have hbrk := hc.brk
    obtain ⟨b, hb, rfl⟩ := Option.map_eq_some_iff.mp hc.eq
    obtain ⟨hne, hmoves⟩ := moves_gjmp (m := m) hc.live hbrk
    exact ⟨hne, hmoves.to_reflTransGen⟩
  | continue_ =>
    have hcont := hc.cont
    obtain ⟨b, hb, rfl⟩ := Option.map_eq_some_iff.mp hc.eq
    exact moves_gjmp hc.live hcont
  | @return_ k s =>
    obtain ⟨g, hg⟩ : ∃ g, g = k.elim x.g fun k => x.g.o (.instr (.act k)) := ⟨_, rfl⟩
    have hact (hC : Completes C g.code) : g.off = false ∧ Reach m C ⟨x.g.ind, s⟩ ⟨g.ind, m.act? k s⟩ := by
      cases k with
      | none =>
        rw [hg]
        exact ⟨hc.live, Relation.ReflTransGen.refl⟩
      | some k =>
        rw [hg] at hC ⊢
        exact ⟨by rw [Option.elim_some, off_o]; exact hc.live, reach_act hc.live k hC⟩
    have hgoes (l : Chain) : Goes n x.g l g l := by
      rw [hg]
      cases k with
      | none => exact Goes.refl
      | some k => exact Goes.o (.act k)
    have hcompletes := hc.completes
    have hret := hc.ret
    have heq := hc.eq
    rw [block, ← hg] at heq
    cases last with
    | true =>
      have hLR := hc.tail rfl rfl
      cases heq
      rw [hLR]
      exact (hact hcompletes).2
    | false =>
      cases heq
      obtain ⟨hemits, hpending⟩ := hgoes _ hc.le hc.pending
      have hperm : PendingFrom n g.code (x.rsym ++ (x.bsym.getD [] ++ (x.csym.getD [] ++ rest))) := by
        refine hpending.perm (List.perm_iff_count.mpr fun p => ?_)
        simp only [Ctx.chains, List.count_append]
        omega
      obtain ⟨hemits', -⟩ := Goes.gjmp (g := g) x.rsym (hc.le.trans hemits.ind_le) hperm
      obtain ⟨hlive, hreach⟩ := hact (hemits'.completes hcompletes)
      exact hreach.trans (moves_gjmp hlive hret).2.to_reflTransGen

section halts

variable {σ : Type} {m : Meaning σ} {C : Nat → Option (Item Instr)} {st mid : State σ} {k : Nat}

/-- The run comes to a state without a next one after at most so many steps. -/
inductive HaltsIn (m : Meaning σ) (C : Nat → Option (Item Instr)) : Nat → State σ → Prop
  | stop {k : Nat} {st : State σ} (h : step m C st = none) : HaltsIn m C k st
  | step {k : Nat} {st st' : State σ} (h : step m C st = some st') (hrest : HaltsIn m C k st') :
    HaltsIn m C (k + 1) st

theorem HaltsIn.of_step {st' : State σ} (h : HaltsIn m C k st) (hstep : statement.step m C st = some st') :
    ∃ k' < k, HaltsIn m C k' st' := by
  cases h with
  | stop hstop =>
    rw [hstep] at hstop
    cases hstop
  | @step k _ st'' hnext hrest =>
    rw [hstep] at hnext
    cases hnext
    exact ⟨k, Nat.lt_succ_self k, hrest⟩

theorem HaltsIn.mono {k' : Nat} (h : HaltsIn m C k st) (hk : k ≤ k') : HaltsIn m C k' st := by
  induction h generalizing k' with
  | stop hstop => exact .stop hstop
  | step hnext _ ih =>
    obtain ⟨j, rfl⟩ : ∃ j, k' = j + 1 := ⟨k' - 1, by omega⟩
    exact .step hnext (ih (Nat.le_of_succ_le_succ hk))

theorem HaltsIn.of_reach (h : HaltsIn m C k st) (hreach : Reach m C st mid) : HaltsIn m C k mid := by
  induction hreach with
  | refl => exact h
  | tail _ hstep ih =>
    obtain ⟨k', hk', hrest⟩ := ih.of_step hstep
    exact hrest.mono hk'.le

theorem HaltsIn.of_moves (h : HaltsIn m C k st) (hmoves : Moves m C st mid) : ∃ k' < k, HaltsIn m C k' mid := by
  obtain ⟨st', hstep, hreach⟩ := Relation.TransGen.head'_iff.mp hmoves
  obtain ⟨k', hk', hrest⟩ := h.of_step hstep
  exact ⟨k', hk', hrest.of_reach hreach⟩

theorem haltsIn_of_reach (hreach : Reach m C st mid) (hstop : statement.step m C mid = none) :
    ∃ k, HaltsIn m C k st := by
  induction hreach using Relation.ReflTransGen.head_induction_on with
  | refl => exact ⟨0, .stop hstop⟩
  | head hstep _ ih =>
    obtain ⟨k, hrest⟩ := ih
    exact ⟨k + 1, .step hstep hrest⟩

/-- A run can only come to one end. -/
theorem reach_stop_unique {mid' : State σ} (h : Reach m C st mid) (h' : Reach m C st mid')
    (hstop : statement.step m C mid = none) (hstop' : statement.step m C mid' = none) : mid = mid' := by
  have hend {e e' : State σ} (hreach : Reach m C e e') (he : statement.step m C e = none) : e = e' := by
    obtain heq | ⟨st', hstep, -⟩ := Relation.ReflTransGen.cases_head hreach
    · exact heq
    · rw [he] at hstep
      cases hstep
  obtain hreach | hreach := Relation.ReflTransGen.total_of_right_unique
    (fun _ _ _ hb hc => Option.some.inj (hb.symm.trans hc)) h h'
  · exact hend hreach hstop
  · exact (hend hreach hstop').symm

end halts

/-- A condition either holds or does not. -/
theorem eval_cases {α : Type} (p : Bool × α) : p = (true, p.2) ∨ p = (false, p.2) := by
  obtain ⟨b, s⟩ := p
  cases b
  · exact Or.inr rfl
  · exact Or.inl rfl

/-- A statement whose code comes to an end is one that ends. The induction on the statement is inside one on the
    steps, since a loop runs its statement again. -/
theorem block_back {σ : Type} {m : Meaning σ} {C : Nat → Option (Item Instr)} {k : Nat} {stmt : Stmt}
    {n LB LC LR : Nat} {rest : Chain} {last : Bool} {x x' : Ctx} {s : σ}
    (hc : Compiled C n rest LB LC LR stmt last x x') (hk : HaltsIn m C k ⟨x.g.ind, s⟩) : ∃ o s', Exec m stmt s o s' := by
  induction k using Nat.strong_induction_on generalizing stmt n LB LC LR rest last x x' s with
  | h k ihk =>
  induction stmt generalizing n LB LC LR rest last x x' s with
  | nil => exact ⟨_, _, Exec.nil⟩
  | seq a b iha ihb =>
    obtain ⟨y, hfirst, -, hsecond⟩ := hc.seq
    obtain ⟨o, s₁, ha⟩ := iha hfirst hk
    by_cases ho : o = .normal
    · subst ho
      obtain ⟨hlive, hreach⟩ := block_run ha hfirst
      obtain ⟨o', s₂, hb⟩ := ihb (hsecond hlive) (hk.of_reach hreach)
      exact ⟨o', s₂, Exec.seq ha hb⟩
    · exact ⟨o, s₁, Exec.seq_out ha ho⟩
  | compound a ih =>
    obtain ⟨o, s', ha⟩ := ih hc.compound hk
    exact ⟨o, s', Exec.compound ha⟩
  | expr e => exact ⟨_, _, Exec.expr⟩
  | if_ c a ih =>
    obtain ⟨g, t, y, -, hbody, htest⟩ := hc.if_ (m := m)
    have hin := htest s
    obtain hcond | hcond := eval_cases (c.eval m s)
    · rw [hcond] at hin
      obtain ⟨o, s', ha⟩ := ih (hbody hin.1) (hk.of_reach hin.2)
      exact ⟨o, s', Exec.if_true hcond ha⟩
    · exact ⟨_, _, Exec.if_false hcond⟩
  | if_else c a b iha ihb =>
    obtain ⟨g, t, y, g', u, z, -, hbody, -, -, -, helse, htest⟩ := hc.if_else (m := m)
    have hin := htest s
    obtain hcond | hcond := eval_cases (c.eval m s)
    · rw [hcond] at hin
      obtain ⟨o, s', ha⟩ := iha (hbody hin.1) (hk.of_reach hin.2)
      exact ⟨o, s', Exec.if_else_true hcond ha⟩
    · rw [hcond] at hin
      obtain ⟨o, s', hb⟩ := ihb (helse hin.1) (hk.of_reach hin.2)
      exact ⟨o, s', Exec.if_else_false hcond hb⟩
  | while_ c a ih =>
    obtain ⟨g, t, l, y, hbody, htest, hback, hoff⟩ := hc.while_ (m := m)
    have hin := htest s
    obtain hcond | hcond := eval_cases (c.eval m s)
    · rw [hcond] at hin
      obtain ⟨o, s₂, ha⟩ := ih (hbody hin.1) (hk.of_reach hin.2)
      cases ho : o.leave with
      | some o' => exact ⟨o', s₂, Exec.while_leave hcond ha ho⟩
      | none =>
        have hagain := (block_run ha (hbody hin.1)).next hback ho
        obtain ⟨k', hk', hrest⟩ := (hk.of_reach hin.2).of_moves hagain
        obtain ⟨o', s₃, hnext⟩ := ihk k' hk' hc hrest
        exact ⟨o', s₃, Exec.while_next hcond ha ho hnext⟩
    · exact ⟨_, _, Exec.while_end hcond⟩
  | do_ a c ih =>
    obtain ⟨l, y, hbody, htest, hoff⟩ := hc.do_ (m := m)
    obtain ⟨o, s₁, ha⟩ := ih hbody hk
    cases ho : o.leave with
    | some o' => exact ⟨o', s₁, Exec.do_leave ha ho⟩
    | none =>
      obtain ⟨hlive, hend⟩ := (block_run ha hbody).end ho
      have hagain := htest s₁ hlive
      obtain hcond | hcond := eval_cases (c.eval m s₁)
      · rw [hcond] at hagain
        obtain ⟨k', hk', hrest⟩ := (hk.of_reach hend).of_moves hagain
        obtain ⟨o', s₃, hnext⟩ := ihk k' hk' hc hrest
        exact ⟨o', s₃, Exec.do_next ha ho hcond hnext⟩
      · exact ⟨_, _, Exec.do_end ha ho hcond⟩
  | for_ init c e a ih =>
    have hloop {n LB LC LR : Nat} {rest : Chain} {last : Bool} {x x' : Ctx} {s : σ}
        (hc : Compiled C n rest LB LC LR (.for_ none c e a) last x x') (hk : HaltsIn m C k ⟨x.g.ind, s⟩) :
        ∃ o s', Exec m (.for_ none c e a) s o s' := by
      obtain ⟨g, t, d, l, y, hbody, htest, hstep, hback, hoff⟩ := hc.for_ (m := m)
      have hin := htest s
      obtain hcond | hcond := eval_cases (m.holds? c s)
      · rw [hcond] at hin
        obtain ⟨o, s₂, ha⟩ := ih (hbody hin.1) (hk.of_reach hin.2)
        cases ho : o.leave with
        | some o' => exact ⟨o', s₂, Exec.for_leave hcond ha ho⟩
        | none =>
          have hagain := (block_run ha (hbody hin.1)).next hback ho
          obtain ⟨k', hk', hrest⟩ := (hk.of_reach hin.2).of_moves hagain
          obtain ⟨o', s₃, hnext⟩ := ihk k' hk' hc (hrest.of_reach (hstep s₂))
          exact ⟨o', s₃, Exec.for_next hcond ha ho hnext⟩
      · exact ⟨_, _, Exec.for_end hcond⟩
    cases init with
    | none => exact hloop hc hk
    | some i =>
      obtain ⟨hrest, hreach⟩ := hc.after_init (m := m)
      obtain ⟨o, s', h⟩ := hloop hrest (hk.of_reach (hreach s))
      exact ⟨o, s', Exec.for_init h⟩
  | break_ => exact ⟨_, _, Exec.break_⟩
  | continue_ => exact ⟨_, _, Exec.continue_⟩
  | return_ e => exact ⟨_, _, Exec.return_⟩

/-- A function is compiled from the start of its code, and its returns lead to the end. -/
theorem gen_function_compiled {body : Stmt} {code : List (Item Instr)} (hcode : gen_function body = some code)
    (hsound : body.Sound) :
    ∃ x', Compiled (fun p => code[p]?) 0 [] 0 0 code.length body true ⟨⟨[], false⟩, none, none, []⟩ x' ∧
      x'.g.ind = code.length ∧ x'.bsym.getD [] = [] ∧ x'.csym.getD [] = [] := by
  obtain ⟨x', hx', rfl⟩ := Option.map_eq_some_iff.mp hcode
  obtain ⟨hext, hgoes⟩ := block_grown hx'
  obtain ⟨-, hpending⟩ := hgoes 0 [] (Nat.zero_le _) (PendingFrom.nil [])
  have hbsym : x'.bsym.getD [] = [] := by
    have := hext.bsym_isSome
    cases hb : x'.bsym with
    | none => rfl
    | some b => rw [hb] at this; cases this
  have hcsym : x'.csym.getD [] = [] := by
    have := hext.csym_isSome
    cases hb : x'.csym with
    | none => rfl
    | some b => rw [hb] at this; cases this
  rw [Ctx.chains, hbsym, hcsym, List.nil_append, List.nil_append] at hpending
  have hdone := (Goes.gsym x'.rsym (Nat.zero_le _) hpending).2
  have hC : Completes (fun p => (gsym x'.rsym x'.g).code[p]?) (gsym x'.rsym x'.g).code := by
    intro p item hp
    refine Or.inl ⟨fun hitem => ?_, hp⟩
    rw [hitem] at hp
    exact List.not_mem_nil ((hdone.mem_iff p).mpr ⟨Nat.zero_le p, hp⟩)
  have hret := jump_gsym hpending hC
  have hlen : (gsym x'.rsym x'.g).code.length = x'.g.ind := ind_gsym _ _
  have hcompiled : Compiled (fun p => (gsym x'.rsym x'.g).code[p]?) 0 [] 0 0 x'.g.ind body true
      ⟨⟨[], false⟩, none, none, []⟩ x' := by
    refine ⟨hx', rfl, Nat.zero_le _, PendingFrom.nil [], fun _ => hsound,
      (Goes.gsym x'.rsym (Nat.zero_le _) hpending).1.completes hC, ?_, ?_, hret, fun _ _ => rfl⟩
    · rw [hbsym]
      exact fun p hp => (List.not_mem_nil hp).elim
    · rw [hcsym]
      exact fun p hp => (List.not_mem_nil hp).elim
  rw [hlen]
  exact ⟨x', hcompiled, rfl, hbsym, hcsym⟩

end tcc.statement
