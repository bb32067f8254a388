import Mathlib.Data.List.GetD
import Tcc.Asm.Emission

/-! The stack of `.pushsection` and `.popsection`. It is kept in the sections: each has the section that
    the last `.pushsection` to it has left. -/

namespace tcc.asm

/-- A `.pushsection` that waits for its `.popsection`: the sections that it has entered and left, and
    whether another one has entered the same section since. -/
structure Push where
  entered : Nat
  left : Nat
  again : Bool

/-- The pushes that wait after a directive, the last first. -/
def Directive.pushes (d : Directive) (s : AsmState) (pushes : List Push) : List Push :=
  match d with
  | pushsection name =>
    let sec := (find_section s name).1
    ⟨sec, s.cur_text_section, false⟩ ::
      pushes.map fun p => if p.entered = sec then { p with again := true } else p
  | popsection => pushes.tail
  | _ => pushes

/-- The directives that choose a section. -/
def Directive.switches : Directive → Bool
  | text _ _ | «section» _ | pushsection _ | previous | popsection => true
  | _ => false

/-- A `.popsection` goes back to the section that the push it belongs to has left, and is an error
    without one. Nothing that was emitted changes. Data moves the position in the current section only,
    and a change of the section moves none. -/
structure Directive.KeepsSections (d : Directive) (s : AsmState) (pushes : List Push) : Prop where
  unmatched : d = popsection → pushes = [] → ∃ msg, d.step s = .error (.error msg)
  matched : d = popsection → ∀ p ∈ pushes.head?, ∃ s', d.step s = .ok s' ∧ s'.cur_text_section = p.left
  append : ∀ s', d.step s = .ok s' → AppendOnly s s'
  position : ∀ s', d.step s = .ok s' → ∀ i, d.switches ∨ i ≠ s.cur_text_section →
    s'.position i = s.position i
  stays : ∀ s', d.step s = .ok s' → ¬ d.switches → s'.cur_text_section = s.cur_text_section

/-- The operands of a directive fit. A `.popsection` stands in the section that the last push that waits
    has entered, and no other push has entered it since. -/
structure Directive.Orderly (d : Directive) (s : AsmState) (pushes : List Push) : Prop where
  fits : d.Fits s
  entered : d = popsection → ∀ p ∈ pushes.head?, p.entered = s.cur_text_section ∧ p.again = false

/-- The states and the pushes that orderly directives lead to. -/
def OrderlyRun : AsmState × List Push → AsmState × List Push → Prop :=
  Relation.ReflTransGen fun a b =>
    ∃ d : Directive, d.Orderly a.1 a.2 ∧ d.step a.1 = .ok b.1 ∧ b.2 = d.pushes a.1 a.2

section data

variable {s s' s₁ s₂ : AsmState}

/-- Only the current section has changed, and in it not the section that was left. -/
structure Local (s s' : AsmState) : Prop where
  cur : s'.cur_text_section = s.cur_text_section
  other : ∀ i ≠ s.cur_text_section, s'.section_at i = s.section_at i
  prev : ∀ i, (s'.section_at i).prev = (s.section_at i).prev

theorem Local.refl (s : AsmState) : Local s s := ⟨rfl, fun _ _ => rfl, fun _ => rfl⟩

theorem Local.trans (h₁ : Local s s₁) (h₂ : Local s₁ s₂) : Local s s₂ :=
  ⟨h₂.cur.trans h₁.cur, fun i hi => (h₂.other i (h₁.cur.symm ▸ hi)).trans (h₁.other i hi),
    fun i => (h₂.prev i).trans (h₁.prev i)⟩

theorem Local.position (h : Local s s') {i : Nat} (hi : i ≠ s.cur_text_section) :
    s'.position i = s.position i := by
  rw [AsmState.position, AsmState.position, h.cur, if_neg hi, if_neg hi, h.other i hi]

theorem section_at_of_le {i : Nat} (hi : s.sections.length ≤ i) :
    s.section_at i = ⟨"", false, fun _ => 0#8, 0#64, 0#32, none⟩ := by
  rw [AsmState.section_at, List.getD_eq_default _ _ hi]

/-- The field of a section that another one leaves alone. -/
theorem prev_set_section {i : Nat} {sec : Section} (hprev : sec.prev = (s.section_at i).prev) (j : Nat) :
    ((s.set_section i sec).section_at j).prev = (s.section_at j).prev := by
  by_cases hj : j = i
  · subst hj
    by_cases hlt : j < s.sections.length
    · rw [section_at_set hlt, hprev]
    · rw [section_at_of_le (by rw [length_set_section]; omega), section_at_of_le (by omega)]
  · rw [section_at_set_ne hj]

theorem local_set_cur {sec : Section} (hprev : sec.prev = s.cur.prev) (ind : BitVec 32) :
    Local s { s.set_section s.cur_text_section sec with ind := ind } :=
  ⟨rfl, fun _ hi => section_at_set_ne hi, fun j => prev_set_section hprev j⟩

theorem local_ind (ind : BitVec 32) : Local s { s with ind := ind } := ⟨rfl, fun _ _ => rfl, fun _ => rfl⟩

theorem local_g {c : Byte} (hstep : g c s = .ok s') : Local s s' := by
  rw [g] at hstep
  split at hstep
  · cases hstep
  · obtain rfl := Except.ok.inj hstep
    refine local_set_cur ?_ _
    rfl

theorem local_gen_le16 {i : BitVec 32} (hstep : gen_le16 i s = .ok s') : Local s s' := by
  obtain ⟨s₁, h₁, h₂⟩ := bind_ok.mp hstep
  exact (local_g h₁).trans (local_g h₂)

theorem local_gen_le32 {i : BitVec 32} (hstep : gen_le32 i s = .ok s') : Local s s' := by
  obtain ⟨s₁, h₁, hstep⟩ := bind_ok.mp hstep
  obtain ⟨s₂, h₂, hstep⟩ := bind_ok.mp hstep
  obtain ⟨s₃, h₃, h₄⟩ := bind_ok.mp hstep
  exact (((local_g h₁).trans (local_g h₂)).trans (local_g h₃)).trans (local_g h₄)

theorem local_foldlM {α : Type} {f : AsmState → α → Result AsmState}
    (hf : ∀ s s' a, f s a = .ok s' → Local s s') {l : List α} (hstep : l.foldlM f s = .ok s') :
    Local s s' := by
  induction l generalizing s with
  | nil =>
    obtain rfl := Except.ok.inj hstep
    exact Local.refl s
  | cons a l ih =>
    rw [List.foldlM_cons] at hstep
    obtain ⟨s₁, h₁, hstep⟩ := bind_ok.mp hstep
    exact (hf s s₁ a h₁).trans (ih hstep)

theorem local_g_all {bytes : List Byte} (hstep : g_all bytes s = .ok s') : Local s s' :=
  local_foldlM (fun _ _ _ => local_g) hstep

theorem local_asm_data {size : BitVec 32} {emit : ExprValue → AsmState → Result AsmState}
    {values : List ExprValue} (hemit : ∀ s s' e, emit e s = .ok s' → Local s s')
    (hstep : asm_data size emit values s = .ok s') : Local s s' := by
  refine local_foldlM (fun s s' e hstep => ?_) hstep
  split at hstep
  · obtain rfl := Except.ok.inj hstep
    exact local_ind _
  · exact hemit s s' e hstep

theorem local_asm_constant {emit : BitVec 32 → AsmState → Result AsmState}
    (hemit : ∀ s s' i, emit i s = .ok s' → Local s s') (s s' : AsmState) (e : ExprValue)
    (hstep : asm_constant emit e s = .ok s') : Local s s' := by
  rw [asm_constant] at hstep
  split at hstep
  · cases hstep
  · exact hemit s s' _ hstep

theorem local_gen_quad {vl : BitVec 64} (hstep : gen_quad vl s = .ok s') : Local s s' := by
  rw [gen_quad] at hstep
  split at hstep
  · obtain rfl := Except.ok.inj hstep
    exact local_ind _
  · obtain ⟨s₁, h₁, h₂⟩ := bind_ok.mp hstep
    exact (local_gen_le32 h₁).trans (local_gen_le32 h₂)

theorem local_zero_pad {size v : BitVec 32} (hstep : zero_pad size v s = .ok s') : Local s s' := by
  rw [zero_pad] at hstep
  simp only at hstep
  split at hstep
  · obtain rfl := Except.ok.inj hstep
    exact local_ind _
  · split at hstep
    · cases hstep
    · obtain rfl := Except.ok.inj hstep
      refine local_set_cur ?_ _
      rfl

theorem local_align_section (n : BitVec 32) : Local s (align_section n s) := by
  rw [align_section]
  split
  · refine local_set_cur ?_ s.ind
    rfl
  · exact Local.refl s

/-- Data is local to the current section. -/
theorem local_step {d : Directive} (hd : ¬ d.switches) (hstep : d.step s = .ok s') : Local s s' := by
  cases d with
  | align kind n v =>
    obtain ⟨n₁, -, hstep⟩ := bind_ok.mp hstep
    obtain ⟨n₂, -, hstep⟩ := bind_ok.mp hstep
    split at hstep
    · cases hstep
    · obtain ⟨v', -, hstep⟩ := bind_ok.mp hstep
      exact (local_align_section n₂).trans (local_zero_pad hstep)
  | skip n v =>
    obtain ⟨n', -, hstep⟩ := bind_ok.mp hstep
    obtain ⟨v', -, hstep⟩ := bind_ok.mp hstep
    exact local_zero_pad hstep
  | quad values => exact local_foldlM (fun _ _ _ => local_gen_quad) hstep
  | byte values => exact local_asm_data (local_asm_constant fun _ _ _ => local_g) hstep
  | short values => exact local_asm_data (local_asm_constant fun _ _ _ => local_gen_le16) hstep
  | int values => exact local_asm_data (fun _ _ _ => local_gen_le32) hstep
  | fill repeats size val =>
    obtain ⟨repeats', -, hstep⟩ := bind_ok.mp hstep
    split at hstep
    · cases hstep
    · obtain ⟨size', -, hstep⟩ := bind_ok.mp hstep
      split at hstep
      · cases hstep
      · obtain ⟨val', -, hstep⟩ := bind_ok.mp hstep
        exact local_g_all hstep
  | org e esym =>
    obtain ⟨n, -, hstep⟩ := bind_ok.mp hstep
    split at hstep
    · cases hstep
    · exact local_zero_pad hstep
  | string ascii strings => exact local_foldlM (fun _ _ _ => local_g_all) hstep
  | text name n => exact absurd rfl hd
  | «section» name => exact absurd rfl hd
  | pushsection name => exact absurd rfl hd
  | previous => exact absurd rfl hd
  | popsection => exact absurd rfl hd

end data

section switch

variable {s s' : AsmState}

/-- A change of the section moves no position. -/
theorem position_use_section1 (hcur : s.cur_text_section < s.sections.length) (i j : Nat) :
    (use_section1 s i).position j = s.position j := by
  obtain ⟨s₁, hs₁⟩ : ∃ s₁, s₁ =
      s.set_section s.cur_text_section { s.cur with data_offset := ulong s.ind } := ⟨_, rfl⟩
  have heq : use_section1 s i =
      { s₁ with cur_text_section := i, ind := (s₁.section_at i).data_offset.setWidth 32 } := by
    rw [hs₁]
    rfl
  have hoffset : (use_section1 s i).position j = ((s₁.section_at j).data_offset.setWidth 32).toInt := by
    rw [heq, AsmState.position]
    split
    · rename_i hj
      rw [hj]
    · rfl
  rw [hoffset, hs₁, AsmState.position]
  by_cases hj : j = s.cur_text_section
  · subst hj
    rw [section_at_set hcur, if_pos rfl]
    dsimp only
    rw [setWidth_ulong]
  · rw [section_at_set_ne hj, if_neg hj]

theorem prev_use_section1 (i j : Nat) : ((use_section1 s i).section_at j).prev = (s.section_at j).prev := by
  have hset := @prev_set_section s s.cur_text_section { s.cur with data_offset := ulong s.ind } rfl j
  exact hset

theorem find_section_last (name : String) (last : Option Nat) :
    find_section { s with last_text_section := last } name =
      ((find_section s name).1, { (find_section s name).2 with last_text_section := last }) := by
  rw [find_section, find_section]
  dsimp only
  split <;> rfl

/-- A new section is where there was none, and it has nothing yet. -/
theorem find_section_frame (name : String) (j : Nat) :
    (((find_section s name).2.section_at j).prev = (s.section_at j).prev ∧
      ((find_section s name).2.section_at j).data_offset = (s.section_at j).data_offset) ∧
    (find_section s name).2.ind = s.ind := by
  rw [find_section]
  split
  · exact ⟨⟨rfl, rfl⟩, rfl⟩
  · refine ⟨?_, rfl⟩
    rw [AsmState.section_at, AsmState.section_at, List.getD_eq_getElem?_getD, List.getD_eq_getElem?_getD]
    dsimp only
    rcases Nat.lt_trichotomy j s.sections.length with hlt | rfl | hgt
    · rw [List.getElem?_append_left hlt]
      exact ⟨rfl, rfl⟩
    · rw [List.getElem?_concat_length, List.getElem?_eq_none le_rfl]
      exact ⟨rfl, rfl⟩
    · rw [List.getElem?_eq_none (by rw [List.length_append, List.length_singleton]; omega),
        List.getElem?_eq_none (by omega)]
      exact ⟨rfl, rfl⟩

theorem position_find_section (h : s.WF) (name : String) (j : Nat) :
    (find_section s name).2.position j = s.position j := by
  obtain ⟨⟨-, hoffset⟩, hind⟩ := find_section_frame (s := s) name j
  obtain ⟨-, -, -, hcur, -⟩ := append_find_section h name
  rw [AsmState.position, AsmState.position, hcur, hind, hoffset]

theorem position_set_prev (i j : Nat) (p : Option Nat) :
    (s.set_section i { s.section_at i with prev := p }).position j = s.position j := by
  have hoffset : ((s.set_section i { s.section_at i with prev := p }).section_at j).data_offset =
      (s.section_at j).data_offset := by
    by_cases hj : j = i
    · subst hj
      by_cases hlt : j < s.sections.length
      · rw [section_at_set hlt]
      · rw [section_at_of_le (by rw [length_set_section]; omega), section_at_of_le (by omega)]
    · rw [section_at_set_ne hj]
  rw [AsmState.position, AsmState.position, hoffset]
  rfl

theorem local_new_section_align (n : Nat) :
    Local s (new_section_align n s) ∧ (new_section_align n s).ind = s.ind := by
  rw [new_section_align]
  split
  · refine ⟨local_set_cur ?_ s.ind, rfl⟩
    rfl
  · exact ⟨Local.refl s, rfl⟩

theorem position_new_section_align (n j : Nat) : (new_section_align n s).position j = s.position j := by
  obtain ⟨hlocal, hind⟩ := @local_new_section_align s n
  by_cases hj : j = s.cur_text_section
  · rw [AsmState.position, AsmState.position, hlocal.cur, if_pos hj, if_pos hj, hind]
  · exact hlocal.position hj

theorem pop_section_eq {p : Nat} (hp : s.cur.prev = some p) :
    pop_section s = .ok (use_section1 (s.set_section s.cur_text_section { s.cur with prev := none }) p) := by
  rw [pop_section, hp]
  rfl

theorem push_section_spec (h : s.WF) (name : String) :
    (∀ j, (push_section s name).position j = s.position j) ∧
      ∀ j, ((push_section s name).section_at j).prev =
        if j = (find_section s name).1 then some s.cur_text_section else (s.section_at j).prev := by
  obtain ⟨hlt, hwf, -, hcur, -⟩ := append_find_section h name
  have hframe := fun j => (@find_section_frame s name j).1.1
  have hpos := fun j => position_find_section h name j
  rw [push_section]
  generalize find_section s name = r at *
  obtain ⟨sec, s₁⟩ := r
  dsimp only at hcur hframe hpos hlt hwf ⊢
  refine ⟨fun j => ?_, fun j => ?_⟩
  · rw [position_use_section1 (by rw [length_set_section]; exact hwf.cur), position_set_prev]
    exact hpos j
  · rw [prev_use_section1]
    by_cases hj : j = sec
    · rw [hj, section_at_set hlt, if_pos rfl, hcur]
    · rw [section_at_set_ne hj, if_neg hj]
      exact hframe j

/-- The section that a section keeps as the one that was left. -/
def Directive.left (d : Directive) (s : AsmState) (j : Nat) : Option Nat :=
  match d with
  | pushsection name =>
    if j = (find_section s name).1 then some s.cur_text_section else (s.section_at j).prev
  | popsection => if j = s.cur_text_section then none else (s.section_at j).prev
  | _ => (s.section_at j).prev

theorem switch_step {d : Directive} (h : s.WF) (hd : d.switches) (hstep : d.step s = .ok s') :
    (∀ j, s'.position j = s.position j) ∧ ∀ j, (s'.section_at j).prev = d.left s j := by
  cases d with
  | text name n =>
    obtain ⟨n', -, hstep⟩ := bind_ok.mp hstep
    obtain rfl := Except.ok.inj hstep
    generalize (if n' = 0 then name else name ++ toString n'.toInt) = name'
    obtain ⟨-, hwf, -⟩ := append_find_section h name'
    refine ⟨fun j => ?_, fun j => ?_⟩
    · exact (position_use_section1 hwf.cur _ j).trans (position_find_section h name' j)
    · exact (prev_use_section1 _ j).trans (find_section_frame name' j).1.1
  | «section» name =>
    obtain rfl := Except.ok.inj hstep
    obtain ⟨hwf, -⟩ := set_last (p := some s.cur_text_section) h fun q hq => Option.some.inj hq ▸ h.cur
    obtain ⟨-, hwf₁, -⟩ := append_find_section hwf name
    refine ⟨fun j => ?_, fun j => ?_⟩
    · rw [position_new_section_align]
      exact (position_use_section1 hwf₁.cur _ j).trans (position_find_section hwf name j)
    · exact ((local_new_section_align _).1.prev j).trans
        ((prev_use_section1 _ j).trans (find_section_frame name j).1.1)
  | pushsection name =>
    obtain rfl := Except.ok.inj hstep
    obtain ⟨hwf, -⟩ := set_last (p := some s.cur_text_section) h fun q hq => Option.some.inj hq ▸ h.cur
    obtain ⟨hpos, hleft⟩ := push_section_spec hwf name
    rw [find_section_last] at hleft
    refine ⟨fun j => ?_, fun j => ?_⟩
    · rw [position_new_section_align]
      exact hpos j
    · exact ((local_new_section_align _).1.prev j).trans (hleft j)
  | previous =>
    cases hlast : s.last_text_section with
    | none =>
      rw [Directive.step, hlast] at hstep
      cases hstep
    | some last =>
      rw [Directive.step, hlast] at hstep
      obtain rfl := Except.ok.inj hstep
      exact ⟨position_use_section1 h.cur last, prev_use_section1 last⟩
  | popsection =>
    cases hprev : s.cur.prev with
    | none =>
      rw [Directive.step, pop_section, hprev] at hstep
      cases hstep
    | some p =>
      rw [Directive.step, pop_section_eq hprev] at hstep
      obtain rfl := Except.ok.inj hstep
      refine ⟨fun j => ?_, fun j => ?_⟩
      · rw [position_use_section1 (by rw [length_set_section]; exact h.cur)]
        exact position_set_prev _ j none
      · rw [prev_use_section1]
        rw [Directive.left]
        by_cases hj : j = s.cur_text_section
        · rw [hj, section_at_set h.cur, if_pos rfl]
        · rw [section_at_set_ne hj, if_neg hj]
  | _ => exact absurd hd (by simp [Directive.switches])

end switch

section runs

variable {s s' : AsmState} {pushes : List Push} {d : Directive}

/-- What the sections keep is what the pushes that wait have left, the last one for each section. -/
structure Linked (s : AsmState) (pushes : List Push) : Prop where
  link : ∀ i q, (s.section_at i).prev = some q ↔ ∃ p ∈ pushes, p.entered = i ∧ p.again = false ∧ p.left = q
  last : pushes.Pairwise fun p q => p.entered = q.entered → q.again = true

theorem Linked.same (hl : Linked s pushes) (hprev : ∀ i, (s'.section_at i).prev = (s.section_at i).prev) :
    Linked s' pushes :=
  ⟨fun i q => by rw [hprev]; exact hl.link i q, hl.last⟩

/-- A push to a section hides the earlier ones to it. -/
theorem Linked.push (hl : Linked s pushes) {sec cur : Nat}
    (hprev : ∀ i, (s'.section_at i).prev = if i = sec then some cur else (s.section_at i).prev) :
    Linked s' (⟨sec, cur, false⟩ ::
      pushes.map fun p => if p.entered = sec then { p with again := true } else p) := by
  refine ⟨fun i q => ?_, List.pairwise_cons.mpr ⟨fun p' hp' heq => ?_, ?_⟩⟩
  · rw [hprev]
    by_cases hi : i = sec
    · rw [if_pos hi]
      constructor
      · intro h
        exact ⟨_, List.mem_cons_self, hi.symm, rfl, Option.some.inj h⟩
      · rintro ⟨p', hp', hentered, hagain, hleft⟩
        rcases List.mem_cons.mp hp' with rfl | hp'
        · exact congrArg some hleft
        · obtain ⟨p, -, rfl⟩ := List.mem_map.mp hp'
          split at hentered
          · rename_i hp
            rw [if_pos hp] at hagain
            cases hagain
          · rename_i hp
            exact absurd (hentered.trans hi) hp
    · rw [if_neg hi, hl.link]
      constructor
      · rintro ⟨p, hp, hentered, hagain, hleft⟩
        refine ⟨p, List.mem_cons_of_mem _ (List.mem_map.mpr ⟨p, hp, ?_⟩), hentered, hagain, hleft⟩
        exact if_neg fun h => hi (hentered.symm.trans h)
      · rintro ⟨p', hp', hentered, hagain, hleft⟩
        rcases List.mem_cons.mp hp' with rfl | hp'
        · exact absurd hentered.symm hi
        · obtain ⟨p, hp, rfl⟩ := List.mem_map.mp hp'
          split at hagain
          · cases hagain
          · rename_i hne
            rw [if_neg hne] at hentered hleft
            exact ⟨p, hp, hentered, hagain, hleft⟩
  · obtain ⟨p, -, rfl⟩ := List.mem_map.mp hp'
    split at heq
    · rename_i hp
      rw [if_pos hp]
    · rename_i hp
      exact absurd heq.symm hp
  · refine List.pairwise_map.mpr (hl.last.imp fun {p q} hpq heq => ?_)
    have hentered : ∀ p : Push,
        (if p.entered = sec then { p with again := true } else p).entered = p.entered := by
      intro p
      split <;> rfl
    rw [hentered, hentered] at heq
    split
    · rfl
    · exact hpq heq

/-- The pop of the last push that waits. -/
theorem Linked.pop {p : Push} (hl : Linked s (p :: pushes)) (hagain : p.again = false)
    (hprev : ∀ i, (s'.section_at i).prev = if i = p.entered then none else (s.section_at i).prev) :
    Linked s' pushes := by
  obtain ⟨hhead, htail⟩ := List.pairwise_cons.mp hl.last
  refine ⟨fun i q => ?_, htail⟩
  rw [hprev]
  by_cases hi : i = p.entered
  · rw [if_pos hi]
    refine iff_of_false (by simp) ?_
    rintro ⟨p', hp', hentered, hagain', -⟩
    rw [hhead p' hp' (hi.symm.trans hentered.symm)] at hagain'
    cases hagain'
  · rw [if_neg hi, hl.link]
    constructor
    · rintro ⟨p', hp', hentered, hagain', hleft⟩
      rcases List.mem_cons.mp hp' with rfl | hp'
      · exact absurd hentered.symm hi
      · exact ⟨p', hp', hentered, hagain', hleft⟩
    · rintro ⟨p', hp', hentered, hagain', hleft⟩
      exact ⟨p', List.mem_cons_of_mem _ hp', hentered, hagain', hleft⟩

/-- Without a push that waits nothing can be popped. -/
theorem Linked.unmatched (hl : Linked s []) :
    pop_section s = .error (.error ".popsection without .pushsection") := by
  have hnone : s.cur.prev = none := by
    cases hprev : s.cur.prev with
    | none => rfl
    | some q =>
      obtain ⟨p, hp, -⟩ := (hl.link _ q).mp hprev
      exact absurd hp List.not_mem_nil
  rw [pop_section, hnone]
  rfl

theorem Linked.matched {p : Push} (hl : Linked s (p :: pushes)) (hentered : p.entered = s.cur_text_section)
    (hagain : p.again = false) : s.cur.prev = some p.left :=
  (hl.link _ _).mpr ⟨p, List.mem_cons_self, hentered, hagain, rfl⟩

theorem Linked.step (hl : Linked s pushes) (h : s.WF) (hd : d.Orderly s pushes) (hstep : d.step s = .ok s') :
    Linked s' (d.pushes s pushes) := by
  cases hswitch : d.switches with
  | false =>
    have hlocal := local_step (by rw [hswitch]; exact Bool.false_ne_true) hstep
    have hsame : d.pushes s pushes = pushes := by
      cases d with
      | pushsection name => cases hswitch
      | popsection => cases hswitch
      | _ => rfl
    rw [hsame]
    exact hl.same hlocal.prev
  | true =>
    obtain ⟨-, hleft⟩ := switch_step h hswitch hstep
    cases d with
    | pushsection name => exact hl.push hleft
    | popsection =>
      cases pushes with
      | nil =>
        rw [Directive.step, hl.unmatched] at hstep
        cases hstep
      | cons p rest =>
        obtain ⟨hentered, hagain⟩ := hd.entered rfl p rfl
        exact hl.pop hagain fun i => hentered ▸ hleft i
    | _ => exact hl.same hleft

/-- The states that orderly directives lead to from one where no section keeps another. -/
theorem orderly_run {a : AsmState × List Push} (h : s.WF) (hfresh : ∀ i, (s.section_at i).prev = none)
    (hrun : OrderlyRun (s, []) a) : a.1.WF ∧ AppendOnly s a.1 ∧ Linked a.1 a.2 := by
  induction hrun with
  | refl =>
    refine ⟨h, AppendOnly.refl s, fun i q => ?_, List.Pairwise.nil⟩
    rw [hfresh]
    exact iff_of_false (by simp) fun ⟨p, hp, _⟩ => absurd hp List.not_mem_nil
  | tail _ hlast ih =>
    obtain ⟨hwf, happend, hl⟩ := ih
    obtain ⟨d, hd, hstep, hpushes⟩ := hlast
    obtain ⟨hwf', happend', -⟩ := step_appends hwf hd.fits hstep
    refine ⟨hwf', happend.trans happend', ?_⟩
    rw [hpushes]
    exact hl.step hwf hd hstep

theorem Linked.keeps_sections (hl : Linked s pushes) (h : s.WF) (hd : d.Orderly s pushes) :
    d.KeepsSections s pushes := by
  refine ⟨?_, ?_, fun s' hstep => ?_, fun s' hstep i hi => ?_, fun s' hstep hswitch => ?_⟩
  · rintro rfl rfl
    exact ⟨_, hl.unmatched⟩
  · rintro rfl p hp
    obtain ⟨rest, rfl⟩ : ∃ rest, pushes = p :: rest := by
      cases pushes with
      | nil => cases hp
      | cons p' rest => exact ⟨rest, by rw [Option.some.inj hp]⟩
    obtain ⟨hentered, hagain⟩ := hd.entered rfl p rfl
    exact ⟨_, pop_section_eq (hl.matched hentered hagain), rfl⟩
  · exact (step_appends h hd.fits hstep).2.1
  · by_cases hswitch : d.switches
    · exact (switch_step h hswitch hstep).1 i
    · exact (local_step hswitch hstep).position (hi.resolve_left hswitch)
  · exact (local_step hswitch hstep).cur

/-- In a run of orderly directives, from sections of which none keeps another, the pushes and the pops
    match as a stack, no byte that was emitted changes and every section goes on where it was left. -/
theorem sections_of_orderly_run (h : s.WF) (hfresh : ∀ i, (s.section_at i).prev = none)
    (hrun : OrderlyRun (s, []) (s', pushes)) (hd : d.Orderly s' pushes) :
    AppendOnly s s' ∧ d.KeepsSections s' pushes := by
  obtain ⟨hwf, happend, hl⟩ := orderly_run h hfresh hrun
  exact ⟨happend, hl.keeps_sections hwf hd⟩

end runs

theorem fresh_empty_unit (i : Nat) : (empty_unit.section_at i).prev = none := by
  match i with
  | 0 | 1 | 2 => rfl
  | i + 3 => rfl

/-- `.pushsection .data` and `.popsection`. -/
theorem pop_after_push : ∃ s₁, (Directive.pushsection ".data").step empty_unit = .ok s₁ ∧
    AppendOnly empty_unit s₁ ∧ Directive.popsection.KeepsSections s₁ [⟨1, 0, false⟩] := by
  refine ⟨_, rfl, ?_⟩
  refine sections_of_orderly_run wf_empty_unit fresh_empty_unit
    (.single ⟨.pushsection ".data", ⟨trivial, fun h => by cases h⟩, rfl, rfl⟩) ⟨trivial, fun _ p hp => ?_⟩
  cases hp
  exact ⟨rfl, rfl⟩

/-- `.popsection` after `.pushsection .data` and `.section .bss` is an error, and so is the second one
    after `.pushsection .data` twice. -/
theorem pop_elsewhere_fails :
    (∃ s₁ s₂, (Directive.pushsection ".data").step empty_unit = .ok s₁ ∧
      (Directive.section ".bss").step s₁ = .ok s₂ ∧ ¬ Directive.popsection.KeepsSections s₂ [⟨1, 0, false⟩]) ∧
    ∃ s₁ s₂ s₃, (Directive.pushsection ".data").step empty_unit = .ok s₁ ∧
      (Directive.pushsection ".data").step s₁ = .ok s₂ ∧ Directive.popsection.step s₂ = .ok s₃ ∧
        ¬ Directive.popsection.KeepsSections s₃ [⟨1, 0, true⟩] := by
  refine ⟨⟨_, _, rfl, rfl, fun h => ?_⟩, _, _, _, rfl, rfl, rfl, fun h => ?_⟩
  · obtain ⟨s', hstep, -⟩ := h.matched rfl _ rfl
    cases hstep
  · obtain ⟨s', hstep, -⟩ := h.matched rfl _ rfl
    cases hstep

end tcc.asm
