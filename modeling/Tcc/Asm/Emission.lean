import Tcc.Asm.Directive
import Tcc.Machine.Align

/-! Directives only append to the sections. -/

namespace tcc.asm

/-- Where the next byte of a section goes. -/
def AsmState.position (s : AsmState) (i : Nat) : Int :=
  if i = s.cur_text_section then s.ind.toInt else ((s.section_at i).data_offset.setWidth 32).toInt

/-- No position has decreased and no byte below a position has changed. -/
structure AppendOnly (s s' : AsmState) : Prop where
  length_le : s.sections.length ≤ s'.sections.length
  position : ∀ i < s.sections.length, s.position i ≤ s'.position i
  data : ∀ i < s.sections.length, ∀ o : Nat, (o : Int) < s.position i →
    (s'.section_at i).data o = (s.section_at i).data o

/-- The alignment that a directive asks for. -/
def Directive.alignment : Directive → Option Nat
  | align .p2align n _ => some (2 ^ n.v.toNat)
  | align _ n _ => some n.v.toNat
  | _ => none

/-- A directive appends, and one that aligns goes to the next multiple of the alignment. -/
def Directive.Appends (d : Directive) (s s' : AsmState) : Prop :=
  AppendOnly s s' ∧ ∀ a, d.alignment = some a →
    IsLeast {y : Int | s.ind.toInt ≤ y ∧ (a : Int) ∣ y} s'.ind.toInt

/-- The position that a directive asks for is an `int`, and so is an alignment, which is
    not zero. -/
def Directive.Fits (d : Directive) (s : AsmState) : Prop :=
  match d with
  | align .p2align n _ => n.v.toNat ≤ 30 ∧ s.ind.toInt + 2 ^ n.v.toNat ≤ 2 ^ 31
  | align _ n _ => 0 < n.v.toNat ∧ s.ind.toInt + n.v.toNat ≤ 2 ^ 31
  | skip n _ => s.ind.toInt + (n.v.setWidth 32).toInt < 2 ^ 31
  | org e esym => ∀ n, org_operand e esym s = .ok n → n.toNat < 2 ^ 31
  | quad values => s.ind.toInt + 8 * values.length < 2 ^ 31
  | byte values => s.ind.toInt + values.length < 2 ^ 31
  | short values => s.ind.toInt + 2 * values.length < 2 ^ 31
  | int values => s.ind.toInt + 4 * values.length < 2 ^ 31
  | _ => True

/-- The state between directives. -/
structure AsmState.WF (s : AsmState) : Prop where
  cur : s.cur_text_section < s.sections.length
  ind : 0 ≤ s.ind.toInt
  data_offset : ∀ i, (s.section_at i).data_offset.toNat < 2 ^ 31
  prev : ∀ i p, (s.section_at i).prev = some p → p < s.sections.length
  last : ∀ p, s.last_text_section = some p → p < s.sections.length

/-- The states that directives lead to whose operands fit. -/
def Fitting : AsmState → AsmState → Prop :=
  Relation.ReflTransGen fun s s' => ∃ d : Directive, d.Fits s ∧ d.step s = .ok s'

theorem msb_of_nonneg {x : BitVec 32} (h : 0 ≤ x.toInt) : x.msb = false := by
  rw [BitVec.msb_eq_toInt]
  simpa using h

theorem toInt_of_nonneg {x : BitVec 32} (h : 0 ≤ x.toInt) : x.toInt = x.toNat ∧ x.toNat < 2 ^ 31 := by
  have hmsb := msb_of_nonneg h
  refine ⟨BitVec.toInt_eq_toNat_of_msb hmsb, ?_⟩
  have := BitVec.msb_eq_false_iff_two_mul_lt.mp hmsb
  omega

theorem toInt_add_of_lt {x y : BitVec 32} (hx : 0 ≤ x.toInt) (hy : 0 ≤ y.toInt)
    (h : x.toInt + y.toInt < 2 ^ 31) : (x + y).toInt = x.toInt + y.toInt := by
  rw [BitVec.toInt_add, Int.bmod_def]
  omega

namespace AppendOnly

variable {s s₁ s₂ : AsmState}

theorem refl (s : AsmState) : AppendOnly s s := ⟨le_rfl, fun _ _ => le_rfl, fun _ _ _ _ => rfl⟩

theorem trans (h₁ : AppendOnly s s₁) (h₂ : AppendOnly s₁ s₂) : AppendOnly s s₂ := by
  refine ⟨h₁.length_le.trans h₂.length_le, fun i hi => ?_, fun i hi o ho => ?_⟩
  · exact (h₁.position i hi).trans (h₂.position i (hi.trans_le h₁.length_le))
  · rw [h₂.data i (hi.trans_le h₁.length_le) o (ho.trans_le (h₁.position i hi)), h₁.data i hi o ho]

end AppendOnly

section

variable {s s' : AsmState} {i : Nat} {sec : Section}

@[simp] theorem length_set_section : (s.set_section i sec).sections.length = s.sections.length :=
  List.length_set

theorem section_at_set (hi : i < s.sections.length) : (s.set_section i sec).section_at i = sec := by
  simp [AsmState.section_at, AsmState.set_section, List.getD, hi]

theorem section_at_set_ne {j : Nat} (hij : j ≠ i) :
    (s.set_section i sec).section_at j = s.section_at j := by
  simp [AsmState.section_at, AsmState.set_section, List.getD, List.getElem?_set_ne hij.symm]

/-- What an operation that writes at most `n` bytes does. -/
structure Writes (n : Nat) (s s' : AsmState) : Prop where
  wf : s'.WF
  append : AppendOnly s s'
  cur : s'.cur_text_section = s.cur_text_section
  nobits : s'.cur.nobits = s.cur.nobits
  ind : s'.ind.toInt ≤ s.ind.toInt + n

/-- The current section grows. -/
theorem grow {n : Nat} {ind : BitVec 32} (h : s.WF) (hprev : sec.prev = s.cur.prev)
    (hdata : ∀ o < s.ind.toNat, sec.data o = s.cur.data o) (hoffset : sec.data_offset.toNat < 2 ^ 31)
    (hnobits : sec.nobits = s.cur.nobits) (hind : s.ind.toInt ≤ ind.toInt)
    (hle : ind.toInt ≤ s.ind.toInt + n) :
    Writes n s { s.set_section s.cur_text_section sec with ind := ind } := by
  obtain ⟨s', hs'⟩ : ∃ s', s' = { s.set_section s.cur_text_section sec with ind := ind } := ⟨_, rfl⟩
  have hlen : s'.sections.length = s.sections.length := by rw [hs', length_set_section]
  have hcur : s'.section_at s.cur_text_section = sec := by
    rw [hs']
    exact section_at_set h.cur
  have hother (j : Nat) (hj : j ≠ s.cur_text_section) : s'.section_at j = s.section_at j := by
    rw [hs']
    exact section_at_set_ne hj
  have hcur' : s'.cur_text_section = s.cur_text_section := by rw [hs']; rfl
  have hind' : s'.ind = ind := by rw [hs']
  have hlast : s'.last_text_section = s.last_text_section := by rw [hs']; rfl
  rw [← hs']
  refine ⟨⟨?_, ?_, fun j => ?_, fun j p hp => ?_, fun p hp => ?_⟩,
    ⟨hlen.ge, fun j _ => ?_, fun j _ o ho => ?_⟩, hcur', ?_, hind' ▸ hle⟩
  · rw [hlen, hcur']
    exact h.cur
  · rw [hind']
    exact h.ind.trans hind
  · by_cases hj : j = s.cur_text_section
    · rw [hj, hcur]
      exact hoffset
    · rw [hother j hj]
      exact h.data_offset j
  · rw [hlen]
    by_cases hj : j = s.cur_text_section
    · rw [hj, hcur, hprev] at hp
      exact h.prev _ p hp
    · rw [hother j hj] at hp
      exact h.prev j p hp
  · rw [hlen]
    exact h.last p (hlast ▸ hp)
  · rw [AsmState.position, AsmState.position, hcur', hind']
    by_cases hj : j = s.cur_text_section
    · rw [if_pos hj, if_pos hj]
      exact hind
    · rw [if_neg hj, if_neg hj, hother j hj]
  · by_cases hj : j = s.cur_text_section
    · rw [AsmState.position, if_pos hj] at ho
      have hpos := (toInt_of_nonneg h.ind).1
      rw [hj, hcur, hdata o (by omega)]
      rfl
    · rw [hother j hj]
  · rw [AsmState.cur, hcur', hcur, hnobits]

theorem set_section_cur (h : s.WF) : s.set_section s.cur_text_section s.cur = s := by
  have hcur := h.cur
  have hget : s.cur = s.sections[s.cur_text_section] := by
    simp [AsmState.cur, AsmState.section_at, List.getD, h.cur]
  rw [AsmState.set_section, hget, List.set_getElem_self]

/-- The current section grows by space that has no contents. -/
theorem grow_nobits {n : Nat} {ind : BitVec 32} (h : s.WF) (hind : s.ind.toInt ≤ ind.toInt)
    (hle : ind.toInt ≤ s.ind.toInt + n) : Writes n s { s with ind := ind } := by
  have hgrow := @grow s s.cur _ _ h rfl (fun _ _ => rfl) (h.data_offset _) rfl hind hle
  rw [set_section_cur h] at hgrow
  exact hgrow

theorem setWidth_ulong (n : BitVec 32) : (ulong n).setWidth 32 = n := by
  apply BitVec.eq_of_getLsbD_eq
  intro i hi
  have hlt : i < 64 := by omega
  rw [ulong, BitVec.getLsbD_setWidth, BitVec.getLsbD_signExtend]
  simp [hi, hlt]

theorem ulong_toNat {n : BitVec 32} (hn : 0 ≤ n.toInt) : (ulong n).toNat = n.toNat := by
  rw [ulong, BitVec.toNat_signExtend, msb_of_nonneg hn]
  simp [BitVec.toNat_setWidth]
  omega

theorem Writes.refl (h : s.WF) : Writes 0 s s :=
  ⟨h, AppendOnly.refl s, rfl, rfl, by simp⟩

theorem Writes.trans {m n : Nat} {s₁ s₂ : AsmState} (h₁ : Writes m s s₁) (h₂ : Writes n s₁ s₂) :
    Writes (m + n) s s₂ := by
  refine ⟨h₂.wf, h₁.append.trans h₂.append, h₂.cur.trans h₁.cur, h₂.nobits.trans h₁.nobits, ?_⟩
  have := h₁.ind
  have := h₂.ind
  push_cast
  omega

theorem writes_g {c : Byte} (h : s.WF) (hstep : g c s = .ok s') : Writes 1 s s' := by
  rw [g] at hstep
  split at hstep
  · cases hstep
  · rename_i hcond
    simp only [Bool.or_eq_true, beq_iff_eq, not_or, Bool.not_eq_true] at hcond
    obtain ⟨hpos, hlt⟩ := toInt_of_nonneg h.ind
    have hmax : s.ind.toInt + (1#32).toInt < 2 ^ 31 := by
      have hne : s.ind.toNat ≠ (BitVec.intMax 32).toNat := fun heq => hcond.2 (BitVec.eq_of_toNat_eq heq)
      have hval : (BitVec.intMax 32).toNat = 2 ^ 31 - 1 := by decide
      have hone : (1#32).toInt = 1 := by decide
      omega
    have hadd : (s.ind + 1).toInt = s.ind.toInt + 1 := toInt_add_of_lt h.ind (by decide) hmax
    have hlo : s.ind.toInt ≤ (s.ind + 1).toInt := by omega
    obtain rfl := Except.ok.inj hstep
    exact grow h rfl (fun o ho => Function.update_of_ne (by omega) _ _) (h.data_offset _) rfl hlo hadd.le

theorem writes_gen_le16 {i : BitVec 32} (h : s.WF) (hstep : gen_le16 i s = .ok s') : Writes 2 s s' := by
  obtain ⟨s₁, h₁, h₂⟩ := bind_ok.mp hstep
  have hw₁ := writes_g h h₁
  exact hw₁.trans (writes_g hw₁.wf h₂)

theorem writes_gen_le32 {i : BitVec 32} (h : s.WF) (hstep : gen_le32 i s = .ok s') : Writes 4 s s' := by
  obtain ⟨s₁, h₁, hstep⟩ := bind_ok.mp hstep
  obtain ⟨s₂, h₂, hstep⟩ := bind_ok.mp hstep
  obtain ⟨s₃, h₃, h₄⟩ := bind_ok.mp hstep
  have hw₁ := writes_g h h₁
  have hw₂ := writes_g hw₁.wf h₂
  have hw₃ := writes_g hw₂.wf h₃
  exact ((hw₁.trans hw₂).trans hw₃).trans (writes_g hw₃.wf h₄)

/-- A loop over operands, where each may need room for `size` bytes more. -/
theorem writes_foldlM {α : Type} {f : AsmState → α → Result AsmState} (size : Nat)
    (hf : ∀ s s' a, AsmState.WF s → s.ind.toInt + (size : Int) < 2 ^ 31 → f s a = .ok s' →
      Writes size s s') :
    ∀ (l : List α) {s s' : AsmState}, s.WF → s.ind.toInt + (size : Int) * l.length < 2 ^ 31 →
      l.foldlM f s = .ok s' → Writes (size * l.length) s s' := by
  intro l
  induction l with
  | nil =>
    intro s s' h _ hstep
    obtain rfl := Except.ok.inj hstep
    exact Writes.refl h
  | cons a l ih =>
    intro s s' h hroom hstep
    rw [List.foldlM_cons] at hstep
    obtain ⟨s₁, h₁, hstep⟩ := bind_ok.mp hstep
    rw [List.length_cons] at hroom ⊢
    have hexpand : size * (l.length + 1) = size + size * l.length := by ring
    have hexpand' : (size : Int) * ((l.length : Nat) + 1 : Nat) = size + size * l.length := by
      push_cast
      ring
    rw [hexpand'] at hroom
    have hnonneg : 0 ≤ (size : Int) * l.length := by positivity
    have hw₁ := hf s s₁ a h (by omega) h₁
    have hind := hw₁.ind
    rw [hexpand]
    exact hw₁.trans (ih hw₁.wf (by omega) hstep)

/-- Bytes are written one by one. -/
theorem append_g_all {bytes : List Byte} (h : s.WF) (hstep : g_all bytes s = .ok s') :
    s'.WF ∧ AppendOnly s s' := by
  induction bytes generalizing s with
  | nil =>
    obtain rfl := Except.ok.inj hstep
    exact ⟨h, AppendOnly.refl s⟩
  | cons c bytes ih =>
    rw [g_all, List.foldlM_cons] at hstep
    obtain ⟨s₁, h₁, hstep⟩ := bind_ok.mp hstep
    have hw := writes_g h h₁
    obtain ⟨hwf, happend⟩ := ih hw.wf hstep
    exact ⟨hwf, hw.append.trans happend⟩

theorem append_strings {ascii : Bool} {strings : List (List Byte)} (h : s.WF)
    (hstep : strings.foldlM (fun s p => g_all (if ascii then p.dropLast else p) s) s = .ok s') :
    s'.WF ∧ AppendOnly s s' := by
  induction strings generalizing s with
  | nil =>
    obtain rfl := Except.ok.inj hstep
    exact ⟨h, AppendOnly.refl s⟩
  | cons p strings ih =>
    rw [List.foldlM_cons] at hstep
    obtain ⟨s₁, h₁, hstep⟩ := bind_ok.mp hstep
    obtain ⟨hwf₁, happend₁⟩ := append_g_all h h₁
    obtain ⟨hwf, happend⟩ := ih hwf₁ hstep
    exact ⟨hwf, happend₁.trans happend⟩

/-- A value where the section has no contents. -/
theorem writes_nobits {n : BitVec 32} (h : s.WF) (hn : 0 ≤ n.toInt)
    (hroom : s.ind.toInt + n.toInt < 2 ^ 31) :
    Writes n.toNat s { s with ind := s.ind + n } ∧ (s.ind + n).toInt = s.ind.toInt + n.toInt := by
  have hadd := toInt_add_of_lt h.ind hn hroom
  have hval := (toInt_of_nonneg hn).1
  exact ⟨grow_nobits h (by omega) (by omega), hadd⟩

theorem writes_asm_data {size : Nat} {emit : ExprValue → AsmState → Result AsmState}
    {values : List ExprValue} (hsize : size < 2 ^ 31)
    (hemit : ∀ s s' e, s.WF → emit e s = .ok s' → Writes size s s') (h : s.WF)
    (hroom : s.ind.toInt + size * values.length < 2 ^ 31)
    (hstep : asm_data (BitVec.ofNat 32 size) emit values s = .ok s') :
    Writes (size * values.length) s s' := by
  refine writes_foldlM size (fun s s' e hs hroom hstep => ?_) values h hroom hstep
  split at hstep
  · obtain rfl := Except.ok.inj hstep
    have hval : (BitVec.ofNat 32 size).toNat = size := by
      rw [BitVec.toNat_ofNat]
      omega
    have hint : (BitVec.ofNat 32 size).toInt = size := by
      rw [BitVec.toInt_eq_toNat_of_msb, hval]
      rw [BitVec.msb_eq_false_iff_two_mul_lt, hval]
      omega
    have hw := (writes_nobits hs (n := BitVec.ofNat 32 size) (by omega) (by omega)).1
    rwa [hval] at hw
  · exact hemit s s' e hs hstep

theorem writes_asm_constant {size : Nat} {emit : BitVec 32 → AsmState → Result AsmState}
    (hemit : ∀ s s' i, AsmState.WF s → emit i s = .ok s' → Writes size s s') (s s' : AsmState)
    (e : ExprValue) (h : s.WF) (hstep : asm_constant emit e s = .ok s') : Writes size s s' := by
  rw [asm_constant] at hstep
  split at hstep
  · cases hstep
  · exact hemit s s' _ h hstep

theorem writes_gen_quad {vl : BitVec 64} (h : s.WF) (hroom : s.ind.toInt + 8 < 2 ^ 31)
    (hstep : gen_quad vl s = .ok s') : Writes 8 s s' := by
  rw [gen_quad] at hstep
  split at hstep
  · obtain rfl := Except.ok.inj hstep
    exact (writes_nobits h (n := 8) (by decide) hroom).1
  · obtain ⟨s₁, h₁, h₂⟩ := bind_ok.mp hstep
    have hw₁ := writes_gen_le32 h h₁
    exact hw₁.trans (writes_gen_le32 hw₁.wf h₂)

/-- Space moves the position by exactly its size. -/
theorem writes_zero_pad {size v : BitVec 32} (h : s.WF) (hsize : 0 ≤ size.toInt)
    (hroom : s.ind.toInt + size.toInt < 2 ^ 31) (hstep : zero_pad size v s = .ok s') :
    Writes size.toNat s s' ∧ s'.ind.toInt = s.ind.toInt + size.toInt := by
  have hadd := toInt_add_of_lt h.ind hsize hroom
  obtain ⟨hpos, -⟩ := toInt_of_nonneg h.ind
  obtain ⟨hval, -⟩ := toInt_of_nonneg hsize
  rw [zero_pad] at hstep
  simp only at hstep
  split at hstep
  · obtain rfl := Except.ok.inj hstep
    exact writes_nobits h hsize hroom
  · split at hstep
    · cases hstep
    · obtain rfl := Except.ok.inj hstep
      have hlo : s.ind.toInt ≤ (s.ind + size).toInt := by omega
      have hhi : (s.ind + size).toInt ≤ s.ind.toInt + size.toNat := by omega
      have hoffset : (ulong s.ind + ulong size).toNat < 2 ^ 31 := by
        rw [BitVec.toNat_add, ulong_toNat h.ind, ulong_toNat hsize]
        omega
      exact ⟨grow h rfl (fun o ho => if_neg (by omega)) hoffset rfl hlo hhi, hadd⟩

/-- Only what is not emitted changes. -/
theorem append_of_same (hlen : s.sections.length ≤ s'.sections.length)
    (hposition : ∀ i < s.sections.length, s'.position i = s.position i)
    (hdata : ∀ i < s.sections.length, (s'.section_at i).data = (s.section_at i).data) :
    AppendOnly s s' :=
  ⟨hlen, fun i hi => (hposition i hi).ge, fun i hi o _ => congrFun (hdata i hi) o⟩

theorem set_prev {p : Option Nat} (h : s.WF) (hi : i < s.sections.length)
    (hp : ∀ q, p = some q → q < s.sections.length) :
    (s.set_section i { s.section_at i with prev := p }).WF ∧
      AppendOnly s (s.set_section i { s.section_at i with prev := p }) := by
  have hoffset (j : Nat) : ((s.set_section i { s.section_at i with prev := p }).section_at j).data_offset =
      (s.section_at j).data_offset := by
    by_cases hj : j = i
    · rw [hj, section_at_set hi]
    · rw [section_at_set_ne hj]
  refine ⟨⟨?_, h.ind, fun j => ?_, fun j q hq => ?_, fun q hq => ?_⟩,
    append_of_same length_set_section.ge (fun j _ => ?_) (fun j _ => ?_)⟩
  · rw [length_set_section]
    exact h.cur
  · rw [hoffset]
    exact h.data_offset j
  · rw [length_set_section]
    by_cases hj : j = i
    · rw [hj, section_at_set hi] at hq
      exact hp q hq
    · rw [section_at_set_ne hj] at hq
      exact h.prev j q hq
  · rw [length_set_section]
    exact h.last q hq
  · rw [AsmState.position, AsmState.position, hoffset]
    rfl
  · by_cases hj : j = i
    · rw [hj, section_at_set hi]
    · rw [section_at_set_ne hj]

theorem set_last {p : Option Nat} (h : s.WF) (hp : ∀ q, p = some q → q < s.sections.length) :
    AsmState.WF { s with last_text_section := p } ∧ AppendOnly s { s with last_text_section := p } :=
  ⟨⟨h.cur, h.ind, h.data_offset, h.prev, hp⟩, append_of_same le_rfl (fun _ _ => rfl) fun _ _ => rfl⟩

/-- The position in the section that is left is kept in it. -/
theorem append_use_section1 (h : s.WF) (hi : i < s.sections.length) :
    (use_section1 s i).WF ∧ AppendOnly s (use_section1 s i) := by
  obtain ⟨s₁, hs₁⟩ : ∃ s₁, s₁ =
      s.set_section s.cur_text_section { s.cur with data_offset := ulong s.ind } := ⟨_, rfl⟩
  have hlen : s₁.sections.length = s.sections.length := by rw [hs₁, length_set_section]
  have hcur : s₁.section_at s.cur_text_section = { s.cur with data_offset := ulong s.ind } := by
    rw [hs₁, section_at_set h.cur]
  have hother (j : Nat) (hj : j ≠ s.cur_text_section) : s₁.section_at j = s.section_at j := by
    rw [hs₁, section_at_set_ne hj]
  have heq : use_section1 s i =
      { s₁ with cur_text_section := i, ind := (s₁.section_at i).data_offset.setWidth 32 } := by
    rw [hs₁]
    rfl
  have hoffset (j : Nat) : (s₁.section_at j).data_offset.toNat < 2 ^ 31 := by
    by_cases hj : j = s.cur_text_section
    · rw [hj, hcur]
      simp only
      rw [ulong_toNat h.ind]
      exact (toInt_of_nonneg h.ind).2
    · rw [hother j hj]
      exact h.data_offset j
  have hnonneg : 0 ≤ ((s₁.section_at i).data_offset.setWidth 32).toInt := by
    have hlt := hoffset i
    refine BitVec.toInt_nonneg_of_msb_false ?_
    rw [BitVec.msb_eq_false_iff_two_mul_lt, BitVec.toNat_setWidth]
    omega
  rw [heq]
  refine ⟨⟨hlen ▸ hi, hnonneg, hoffset, fun j p hp => ?_, fun p hp => ?_⟩,
    append_of_same hlen.ge (fun j _ => ?_) (fun j _ => ?_)⟩
  · rw [hlen]
    change (s₁.section_at j).prev = some p at hp
    by_cases hj : j = s.cur_text_section
    · rw [hj, hcur] at hp
      exact h.prev _ p hp
    · rw [hother j hj] at hp
      exact h.prev j p hp
  · rw [hlen]
    rw [hs₁] at hp
    exact h.last p hp
  · have hsame : AsmState.position { s₁ with
        cur_text_section := i, ind := (s₁.section_at i).data_offset.setWidth 32 } j =
        ((s₁.section_at j).data_offset.setWidth 32).toInt := by
      rw [AsmState.position]
      split
      · rename_i hj
        rw [hj]
      · rfl
    rw [hsame, AsmState.position]
    by_cases hj : j = s.cur_text_section
    · rw [hj, hcur, if_pos rfl]
      simp only
      rw [setWidth_ulong]
    · rw [hother j hj, if_neg hj]
  · change (s₁.section_at j).data = _
    by_cases hj : j = s.cur_text_section
    · rw [hj, hcur]
      rfl
    · rw [hother j hj]

theorem append_find_section (h : s.WF) (name : String) :
    (find_section s name).1 < (find_section s name).2.sections.length ∧
      (find_section s name).2.WF ∧ AppendOnly s (find_section s name).2 ∧
        (find_section s name).2.cur_text_section = s.cur_text_section ∧
          (find_section s name).2.last_text_section = s.last_text_section := by
  rw [find_section]
  split
  · rename_i j hj
    exact ⟨(List.findIdx?_eq_some_iff_findIdx_eq.mp hj).1, h, AppendOnly.refl s, rfl, rfl⟩
  · have hold (new : Section) (j : Nat) (hj : j < s.sections.length) :
        AsmState.section_at { s with sections := s.sections ++ [new] } j = s.section_at j := by
      simp [AsmState.section_at, List.getD, List.getElem?_append_left hj]
    obtain ⟨new, hnew⟩ : ∃ new : Section, new = ⟨name, false, fun _ => 0#8, 0#64, 8#32, none⟩ := ⟨_, rfl⟩
    rw [← hnew]
    have hat (j : Nat) (hj : s.sections.length ≤ j) :
        (AsmState.section_at { s with sections := s.sections ++ [new] } j).data_offset = 0#64 ∧
          (AsmState.section_at { s with sections := s.sections ++ [new] } j).prev = none := by
      rw [AsmState.section_at, List.getD, List.getElem?_append_right hj]
      cases j - s.sections.length with
      | zero => simp [hnew]
      | succ k => simp
    refine ⟨by simp, ⟨?_, h.ind, fun j => ?_, fun j p hp => ?_, fun p hp => ?_⟩, ?_, rfl, rfl⟩
    · have := h.cur
      simp only [List.length_append]
      omega
    · by_cases hj : j < s.sections.length
      · rw [hold new j hj]
        exact h.data_offset j
      · rw [(hat j (by omega)).1]
        decide
    · simp only [List.length_append]
      by_cases hj : j < s.sections.length
      · rw [hold new j hj] at hp
        have := h.prev j p hp
        omega
      · rw [(hat j (by omega)).2] at hp
        cases hp
    · have := h.last p hp
      simp only [List.length_append]
      omega
    · refine append_of_same (by simp) (fun j hj => ?_) (fun j hj => by rw [hold new j hj])
      rw [AsmState.position, AsmState.position, hold new j hj]

theorem append_use_section (h : s.WF) (name : String) :
    (use_section s name).WF ∧ AppendOnly s (use_section s name) := by
  obtain ⟨hlt, hwf, happend, -, -⟩ := append_find_section h name
  obtain ⟨hwf', happend'⟩ := append_use_section1 hwf hlt
  exact ⟨hwf', happend.trans happend'⟩

theorem append_push_section (h : s.WF) (name : String) :
    (push_section s name).WF ∧ AppendOnly s (push_section s name) := by
  obtain ⟨hlt, hwf, happend, -, -⟩ := append_find_section h name
  rw [push_section]
  generalize find_section s name = r at *
  obtain ⟨sec, s₁⟩ := r
  obtain ⟨hwf₂, happend₂⟩ := set_prev (p := some s₁.cur_text_section) hwf hlt
    fun q hq => Option.some.inj hq ▸ hwf.cur
  obtain ⟨hwf₃, happend₃⟩ := append_use_section1 (i := sec) hwf₂ (by rwa [length_set_section])
  exact ⟨hwf₃, (happend.trans happend₂).trans happend₃⟩

theorem append_pop_section (h : s.WF) (hstep : pop_section s = .ok s') : s'.WF ∧ AppendOnly s s' := by
  rw [pop_section] at hstep
  split at hstep
  · cases hstep
  · rename_i prev hprev
    obtain rfl := Except.ok.inj hstep
    obtain ⟨hwf₁, happend₁⟩ := set_prev (p := none) h h.cur (fun q hq => by cases hq)
    obtain ⟨hwf₂, happend₂⟩ := append_use_section1 (i := prev) hwf₁
      (by rw [length_set_section]; exact h.prev _ prev hprev)
    exact ⟨hwf₂, happend₁.trans happend₂⟩

theorem writes_addralign (h : s.WF) (n : BitVec 32) :
    Writes 0 s (s.set_section s.cur_text_section { s.cur with sh_addralign := n }) :=
  @grow s _ _ s.ind h rfl (fun _ _ => rfl) (h.data_offset _) rfl le_rfl (by simp)

theorem append_new_section_align (h : s.WF) (n : Nat) :
    (new_section_align n s).WF ∧ AppendOnly s (new_section_align n s) := by
  rw [new_section_align]
  split
  · have hw := writes_addralign h 1#32
    exact ⟨hw.wf, hw.append⟩
  · exact ⟨h, AppendOnly.refl s⟩

theorem asm_int_expr_ok {e : ExprValue} {n : BitVec 32} (h : asm_int_expr e = .ok n) :
    n = e.v.setWidth 32 := by
  rw [asm_int_expr] at h
  split at h
  · cases h
  · exact (Except.ok.inj h).symm

theorem setWidth_toNat {v : BitVec 64} (h : v.toNat < 2 ^ 32) : (v.setWidth 32).toNat = v.toNat := by
  rw [BitVec.toNat_setWidth, Nat.mod_eq_of_lt h]

/-- The alignment that the operand asks for, as an `int`. -/
theorem align_operand_ok {kind : Alignment} {n : ExprValue} {v : Option ExprValue} {n' : BitVec 32}
    (hind : 0 ≤ s.ind.toInt)
    (hfits : (Directive.align kind n v).Fits s) (h : align_operand kind (n.v.setWidth 32) = .ok n') :
    (Directive.align kind n v).alignment = some n'.toNat ∧ 0 < n'.toNat ∧
      s.ind.toInt + n'.toNat ≤ 2 ^ 31 := by
  cases kind with
  | p2align =>
    obtain ⟨hle, hroom⟩ := hfits
    rw [align_operand] at h
    split at h
    · cases h
    · obtain rfl := Except.ok.inj h
      have hval : (n.v.setWidth 32).toNat = n.v.toNat := setWidth_toNat (by omega)
      have hpow : (1#32 <<< n.v.setWidth 32).toNat = 2 ^ n.v.toNat := by
        rw [BitVec.shiftLeft_eq', hval, BitVec.toNat_shiftLeft, Nat.shiftLeft_eq]
        have hlt : 2 ^ n.v.toNat < 2 ^ 32 := Nat.pow_lt_pow_right (by omega) (by omega)
        have hone : (1#32).toNat = 1 := rfl
        rw [hone, Nat.one_mul, Nat.mod_eq_of_lt hlt]
      rw [hpow]
      exact ⟨rfl, Nat.two_pow_pos _, by push_cast; exact hroom⟩
  | align | balign =>
    obtain ⟨hpos, hroom⟩ := hfits
    obtain rfl := Except.ok.inj h
    rw [setWidth_toNat (by omega)]
    exact ⟨rfl, hpos, hroom⟩

theorem writes_align_section (h : s.WF) (n : BitVec 32) : Writes 0 s (align_section n s) := by
  rw [align_section]
  split
  · exact writes_addralign h n
  · exact Writes.refl h

theorem ind_align_section (n : BitVec 32) (s : AsmState) : (align_section n s).ind = s.ind := by
  rw [align_section]
  split <;> rfl

theorem step_align {kind : Alignment} {n : ExprValue} {v : Option ExprValue} (h : s.WF)
    (hfits : (Directive.align kind n v).Fits s)
    (hstep : (Directive.align kind n v).step s = .ok s') :
    s'.WF ∧ (Directive.align kind n v).Appends s s' := by
  obtain ⟨n₁, hn₁, hstep⟩ := bind_ok.mp hstep
  obtain ⟨n₂, hn₂, hstep⟩ := bind_ok.mp hstep
  rw [asm_int_expr_ok hn₁] at hn₂
  obtain ⟨halign, hpos, hroom⟩ := align_operand_ok h.ind hfits hn₂
  split at hstep
  · cases hstep
  · rename_i hcond
    simp only [Bool.or_eq_true, not_or, Bool.not_eq_true, bne_iff_ne, ne_eq, not_not] at hcond
    obtain ⟨v', -, hstep⟩ := bind_ok.mp hstep
    have hw₁ := writes_align_section h n₂
    have hind₁ := ind_align_section n₂ s
    obtain ⟨hind, hlt⟩ := toInt_of_nonneg h.ind
    have hoffset := machine.toNat_align_up hpos hcond.2 (x := s.ind) (by omega)
    have hleast := machine.isLeast_align_up hpos s.ind.toNat
    have hup := machine.align_up_le n₂.toNat s.ind.toNat
    have hlow : s.ind.toNat ≤ machine.align_up n₂.toNat s.ind.toNat := hleast.1.1
    generalize hoff : (s.ind + n₂ - 1 &&& -n₂) = offset at hstep
    have hoff' : offset.toNat = machine.align_up n₂.toNat s.ind.toNat := by
      rw [← hoff]
      exact hoffset
    have hsize : (offset - s.ind).toNat = offset.toNat - s.ind.toNat :=
      BitVec.toNat_sub_of_le (by rw [BitVec.le_def]; omega)
    have hsize_int : (offset - s.ind).toInt = offset.toNat - s.ind.toNat := by
      rw [BitVec.toInt_eq_toNat_of_msb, hsize]
      · omega
      · rw [BitVec.msb_eq_false_iff_two_mul_lt, hsize]
        omega
    obtain ⟨hw, hval⟩ := writes_zero_pad hw₁.wf (by omega) (by rw [hind₁]; omega) hstep
    refine ⟨hw.wf, hw₁.append.trans hw.append, fun a ha => ?_⟩
    obtain rfl : n₂.toNat = a := Option.some.inj (halign.symm.trans ha)
    have hend : s'.ind.toInt = machine.align_up n₂.toNat s.ind.toNat := by
      rw [hval, hind₁]
      omega
    rw [hend, hind]
    refine ⟨⟨by exact_mod_cast hlow, by exact_mod_cast hleast.1.2⟩, ?_⟩
    rintro y ⟨hy, hdvd⟩
    obtain ⟨y', rfl⟩ := Int.eq_ofNat_of_zero_le (by omega : 0 ≤ y)
    have hmem : s.ind.toNat ≤ y' ∧ n₂.toNat ∣ y' := ⟨by exact_mod_cast hy, by exact_mod_cast hdvd⟩
    exact_mod_cast hleast.2 hmem

/-- Every directive whose operands fit only appends. -/
theorem step_appends {d : Directive} (h : s.WF) (hfits : d.Fits s) (hstep : d.step s = .ok s') :
    s'.WF ∧ d.Appends s s' := by
  have hnone (hd : d.alignment = none) (hgoal : s'.WF ∧ AppendOnly s s') : s'.WF ∧ d.Appends s s' :=
    ⟨hgoal.1, hgoal.2, fun a ha => by rw [hd] at ha; cases ha⟩
  have hwrites {n : Nat} (hw : Writes n s s') : s'.WF ∧ AppendOnly s s' := ⟨hw.wf, hw.append⟩
  cases d with
  | align kind n v => exact step_align h hfits hstep
  | skip n v =>
    refine hnone rfl ?_
    obtain ⟨n', hn', hstep⟩ := bind_ok.mp hstep
    obtain ⟨v', -, hstep⟩ := bind_ok.mp hstep
    rw [asm_int_expr_ok hn'] at hstep
    have hroom : s.ind.toInt + (n.v.setWidth 32).toInt < 2 ^ 31 := hfits
    have hlt := (toInt_of_nonneg h.ind).2
    have hpos := (toInt_of_nonneg h.ind).1
    have hsize : 0 ≤ (if (n.v.setWidth 32).slt 0 then 0 else n.v.setWidth 32).toInt ∧
        s.ind.toInt + (if (n.v.setWidth 32).slt 0 then 0 else n.v.setWidth 32).toInt < 2 ^ 31 := by
      split
      · have hzero : (0 : BitVec 32).toInt = 0 := by decide
        omega
      · rename_i hneg
        rw [BitVec.slt_iff_toInt_lt] at hneg
        have hzero : (0 : BitVec 32).toInt = 0 := by decide
        omega
    exact hwrites (writes_zero_pad h hsize.1 hsize.2 hstep).1
  | quad values =>
    exact hnone rfl (hwrites (writes_foldlM 8 (fun s s' a hs hroom => writes_gen_quad hs (by omega)) values h
      hfits hstep))
  | byte values =>
    have hroom : s.ind.toInt + (values.length : Int) < 2 ^ 31 := hfits
    exact hnone rfl (hwrites (writes_asm_data (by omega)
      (writes_asm_constant fun _ _ _ hs => writes_g hs) h (by push_cast; omega) hstep))
  | short values =>
    exact hnone rfl (hwrites (writes_asm_data (by omega)
      (writes_asm_constant fun _ _ _ hs => writes_gen_le16 hs) h hfits hstep))
  | int values =>
    exact hnone rfl (hwrites (writes_asm_data (by omega) (fun _ _ _ hs => writes_gen_le32 hs) h hfits hstep))
  | fill repeats size val =>
    refine hnone rfl ?_
    obtain ⟨repeats', -, hstep⟩ := bind_ok.mp hstep
    split at hstep
    · cases hstep
    · obtain ⟨size', -, hstep⟩ := bind_ok.mp hstep
      split at hstep
      · cases hstep
      · obtain ⟨val', -, hstep⟩ := bind_ok.mp hstep
        exact append_g_all h hstep
  | org e esym =>
    refine hnone rfl ?_
    obtain ⟨n, hn, hstep⟩ := bind_ok.mp hstep
    have hlt : n.toNat < 2 ^ 31 := hfits n hn
    split at hstep
    · cases hstep
    · rename_i hback
      rw [BitVec.not_lt, BitVec.le_def, ulong_toNat h.ind] at hback
      obtain ⟨hpos, -⟩ := toInt_of_nonneg h.ind
      have hsub : (n - ulong s.ind).toNat = n.toNat - s.ind.toNat := by
        rw [BitVec.toNat_sub_of_le (by rw [BitVec.le_def, ulong_toNat h.ind]; exact hback), ulong_toNat h.ind]
      have hsize : ((n - ulong s.ind).setWidth 32).toNat = n.toNat - s.ind.toNat := by
        rw [setWidth_toNat (by omega), hsub]
      have hsize_int : ((n - ulong s.ind).setWidth 32).toInt = n.toNat - s.ind.toNat := by
        rw [BitVec.toInt_eq_toNat_of_msb, hsize]
        · omega
        · rw [BitVec.msb_eq_false_iff_two_mul_lt, hsize]
          omega
      exact hwrites (writes_zero_pad h (by omega) (by omega) hstep).1
  | string ascii strings => exact hnone rfl (append_strings h hstep)
  | text name n =>
    refine hnone rfl ?_
    obtain ⟨n', -, hstep⟩ := bind_ok.mp hstep
    obtain rfl := Except.ok.inj hstep
    exact append_use_section h _
  | «section» name =>
    refine hnone rfl ?_
    obtain rfl := Except.ok.inj hstep
    obtain ⟨hwf, happend⟩ := set_last (p := some s.cur_text_section) h fun q hq => Option.some.inj hq ▸ h.cur
    obtain ⟨hwf₁, happend₁⟩ := append_use_section hwf name
    obtain ⟨hwf₂, happend₂⟩ := append_new_section_align hwf₁ s.sections.length
    exact ⟨hwf₂, (happend.trans happend₁).trans happend₂⟩
  | pushsection name =>
    refine hnone rfl ?_
    obtain rfl := Except.ok.inj hstep
    obtain ⟨hwf, happend⟩ := set_last (p := some s.cur_text_section) h fun q hq => Option.some.inj hq ▸ h.cur
    obtain ⟨hwf₁, happend₁⟩ := append_push_section hwf name
    obtain ⟨hwf₂, happend₂⟩ := append_new_section_align hwf₁ s.sections.length
    exact ⟨hwf₂, (happend.trans happend₁).trans happend₂⟩
  | previous =>
    refine hnone rfl ?_
    cases hlast : s.last_text_section with
    | none =>
      rw [Directive.step, hlast] at hstep
      cases hstep
    | some last =>
      rw [Directive.step, hlast] at hstep
      obtain rfl := Except.ok.inj hstep
      obtain ⟨hwf₁, happend₁⟩ := append_use_section1 h (h.last last hlast)
      obtain ⟨hwf₂, happend₂⟩ := set_last (p := some s.cur_text_section) hwf₁
        fun q hq => Option.some.inj hq ▸ (h.cur.trans_le happend₁.length_le)
      exact ⟨hwf₂, happend₁.trans happend₂⟩
  | popsection => exact hnone rfl (append_pop_section h hstep)

theorem fitting_append (h : s.WF) (hrun : Fitting s s') : s'.WF ∧ AppendOnly s s' := by
  induction hrun with
  | refl => exact ⟨h, AppendOnly.refl s⟩
  | tail _ hlast ih =>
    obtain ⟨d, hfits, hstep⟩ := hlast
    obtain ⟨hwf, happends, -⟩ := step_appends ih.1 hfits hstep
    exact ⟨hwf, ih.2.trans happends⟩

end

/-- In a run of accepted directives whose operands fit, nothing that has been emitted changes
    and no position decreases, from the start on and at every directive; and a directive that
    aligns goes to the next multiple of the alignment. -/
theorem emission_append_only {s s₁ s₂ : AsmState} {d : Directive} (h : s.WF) (hrun : Fitting s s₁)
    (hfits : d.Fits s₁) (hstep : d.step s₁ = .ok s₂) : AppendOnly s s₁ ∧ d.Appends s₁ s₂ := by
  obtain ⟨hwf, happend⟩ := fitting_append h hrun
  exact ⟨happend, (step_appends hwf hfits hstep).2⟩

/-- The sections of an empty unit, with the text section current. -/
def empty_unit : AsmState :=
  ⟨[⟨".text", false, fun _ => 0#8, 0#64, 8#32, none⟩, ⟨".data", false, fun _ => 0#8, 0#64, 8#32, none⟩,
    ⟨".bss", true, fun _ => 0#8, 0#64, 8#32, none⟩], 0, 0#32, none⟩

theorem wf_empty_unit : empty_unit.WF := by
  refine ⟨by decide, by decide, fun i => ?_, fun i p hp => ?_, fun p hp => by cases hp⟩
  · match i with
    | 0 | 1 | 2 => decide
    | i + 3 => exact (by decide : (0#64).toNat < 2 ^ 31)
  · match i with
    | 0 | 1 | 2 => cases hp
    | i + 3 => cases hp

/-- `.skip 3` and `.align 8` in the text section. -/
theorem skip_align_appends : ∃ s₁ s₂, (Directive.skip ⟨3, none⟩ none).step empty_unit = .ok s₁ ∧
    (Directive.align .align ⟨8, none⟩ none).step s₁ = .ok s₂ ∧ AppendOnly empty_unit s₁ ∧
      (Directive.align .align ⟨8, none⟩ none).Appends s₁ s₂ := by
  refine ⟨_, _, rfl, rfl, ?_⟩
  refine emission_append_only wf_empty_unit (.single ⟨.skip ⟨3, none⟩ none, ?_, rfl⟩) ?_ rfl
  · exact (by decide : (0#32).toInt + (BitVec.setWidth 32 (3 : BitVec 64)).toInt < 2 ^ 31)
  · exact ⟨by decide, by decide⟩

/-- `.align 0` after `.skip 16` in `.bss` is accepted and goes back to position 0. -/
theorem align_zero_moves_back : ∃ s₁ s₂, (do
      let s ← (Directive.text ".bss" none).step empty_unit
      (Directive.skip ⟨16, none⟩ none).step s) = .ok s₁ ∧
    (Directive.align .align ⟨0, none⟩ none).step s₁ = .ok s₂ ∧
      ¬(Directive.align .align ⟨0, none⟩ none).Appends s₁ s₂ := by
  refine ⟨_, _, rfl, rfl, fun h => ?_⟩
  exact absurd (h.1.position 2 (by decide)) (by decide)

end tcc.asm
