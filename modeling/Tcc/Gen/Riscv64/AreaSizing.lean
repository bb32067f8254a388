import Tcc.Gen.Riscv64.Arguments

open machine

namespace tcc.riscv64

open BType RegClass

theorem and_twoPow_ne_zero {w i : Nat} (hi : i < w) (x : BitVec w) :
    x &&& BitVec.twoPow w i ≠ 0#w ↔ x.getLsbD i = true := by
  rw [BitVec.and_twoPow]
  cases x.getLsbD i with
  | false => simp
  | true =>
    have hne : BitVec.twoPow w i ≠ 0#w := by
      intro hzero
      have hbit := congrArg (BitVec.getLsbD · i) hzero
      simp [hi] at hbit
    simp [hne]

theorem and_16_ne_zero (x : BitVec 32) : x &&& 16#32 ≠ 0#32 ↔ x.getLsbD 4 = true :=
  and_twoPow_ne_zero (i := 4) (by decide) x

theorem and_32_ne_zero (x : BitVec 32) : x &&& 32#32 ≠ 0#32 ↔ x.getLsbD 5 = true :=
  and_twoPow_ne_zero (i := 5) (by decide) x

theorem and_64_ne_zero (x : BitVec 32) : x &&& 64#32 ≠ 0#32 ↔ x.getLsbD 6 = true :=
  and_twoPow_ne_zero (i := 6) (by decide) x

theorem getLsbD_ofNat_of_lt {r k i : Nat} (hr : r < 2 ^ k) (hi : k ≤ i) :
    (BitVec.ofNat 32 r).getLsbD i = false := by
  rw [BitVec.getLsbD_ofNat, Nat.testBit_lt_two_pow (hr.trans_le (Nat.pow_le_pow_right (by decide) hi)),
    Bool.and_false]

/-- The offset of a copy is found again behind the bits of a register and of the flags. -/
theorem sshiftRight_info {x : BitVec 32} (hx : ∀ i, 7 ≤ i → x.getLsbD i = false) {t : Nat}
    (ht : t < 2 ^ 24) : ((x ||| (64#32 ||| BitVec.ofNat 32 t <<< 7)).sshiftRight 7).toInt = t := by
  have hbit (i : Nat) (hi : 7 ≤ i) :
      (x ||| (64#32 ||| BitVec.ofNat 32 t <<< 7)).getLsbD i = (decide (i < 32) && t.testBit (i - 7)) := by
    have h64 : (64#32).getLsbD i = false := getLsbD_ofNat_of_lt (k := 7) (by decide) hi
    rw [BitVec.getLsbD_or, BitVec.getLsbD_or, hx i hi, h64, BitVec.getLsbD_shiftLeft,
      BitVec.getLsbD_ofNat, decide_eq_false (by omega : ¬i < 7)]
    have hlt : i < 32 → i - 7 < 32 := by omega
    by_cases hi32 : i < 32
    · simp [hi32, hlt hi32]
    · simp [hi32]
  have hhigh (i : Nat) (hi : 24 ≤ i) : t.testBit i = false :=
    Nat.testBit_lt_two_pow (ht.trans_le (Nat.pow_le_pow_right (by decide) hi))
  have hshift : (x ||| (64#32 ||| BitVec.ofNat 32 t <<< 7)).sshiftRight 7 = BitVec.ofNat 32 t := by
    apply BitVec.eq_of_getLsbD_eq
    intro i hi
    rw [BitVec.getLsbD_sshiftRight, BitVec.msb_eq_getLsbD_last, hbit _ (by omega), hbit _ (by omega),
      BitVec.getLsbD_ofNat, Nat.add_sub_cancel_left, decide_eq_true hi]
    by_cases hi7 : 7 + i < 32
    · simp [hi7, hi]
    · simp [hi7, hhigh i (by omega), hhigh 24 le_rfl]
  have hnat : (BitVec.ofNat 32 t).toNat = t := by
    rw [BitVec.toNat_ofNat, Nat.mod_eq_of_lt (by omega)]
  rw [hshift, BitVec.toInt_eq_toNat_of_lt (by omega), hnat]

/-- The registers that are left are counted from 0 to 8 and from 8 to 16. -/
structure Counters.Ok (s : Counters) : Prop where
  areg_le : s.areg ≤ 8
  freg_le : s.freg ≤ 16

/-- The second word of an argument in registers has none left. -/
def Half (p : Pass) (s : Counters) : Prop :=
  p.n = 2 ∧ p.prc2 ≠ some RC_FLOAT ∧ 8 ≤ (s.take p.prc1).areg

instance (p : Pass) (s : Counters) : Decidable (Half p s) := inferInstanceAs (Decidable (_ ∧ _))

/-- The first loop of `gfunc_call` for an argument that is passed in registers. -/
def reg_arg (p : Pass) (v : Passed) (s : Counters) : Option (BitVec 32 × Counters) :=
  let info := BitVec.ofNat 32 (s.reg p.prc1)
  let s := s.take p.prc1
  let info := if v.byref = 0#32 then info ||| BitVec.ofNat 32 (p.fieldofs1 % 16) <<< 12 else info
  if p.fieldofs1 >>> 4 ≠ 0 then none
  else if p.n = 2 then
    let (info, s) :=
      if p.prc2 = some RC_FLOAT ∨ s.areg < 8 then
        (info ||| BitVec.ofNat 32 (1 + s.reg p.prc2) <<< 7, s.take p.prc2)
      else (info ||| 16#32, { s with stack_adj := s.stack_adj + 8 })
    if v.byref = 0#32 then
      if p.fieldofs2 >>> 4 < 2048 then
        some (info ||| BitVec.ofNat 32 p.fieldofs2 <<< 16 ||| v.byref, s)
      else none
    else some (info ||| v.byref, s)
  else some (info ||| v.byref, s)

theorem size_arg_eq (a : CallArg) (s : Counters) :
    size_arg a s =
      let v := pass_by_reference a s.tempspace
      let p := reg_pass a.type a.named
      let s := { s with tempspace := v.tempspace }.even a v
      if v.size = 0 then some (0#32 ||| v.byref, s)
      else if on_stack p s then
        let s := { s with stack_adj := s.stack_adj + align_up (xalign v.align) v.size }
        some (32#32 ||| v.byref, if a.named then s else { s with areg := 8, freg := 16 })
      else reg_arg p v s := rfl

theorem Counters.Ok.reg_lt {s : Counters} (hs : s.Ok) {p : Pass} (hstack : ¬on_stack p s) :
    s.reg p.prc1 < 16 := by
  have hareg := hs.areg_le
  unfold Counters.reg
  split
  · by_contra hfull
    exact hstack (Or.inr (Or.inl ⟨‹_›, by omega⟩))
  · omega

/-- The bits of `info` for an argument in registers. -/
theorem reg_arg_info {p : Pass} {v : Passed} {s s' : Counters} {info : BitVec 32} (hs : s.Ok)
    (hstack : ¬on_stack p s) (hbyref : v.byref ≠ 0#32 → p.n ≠ 2)
    (h : reg_arg p v s = some (info, s')) :
    ∃ x, info = x ||| v.byref ∧ x.getLsbD 5 = false ∧ x.getLsbD 6 = false ∧
      (x.getLsbD 4 = true ↔ Half p s) ∧
      (v.byref ≠ 0#32 → ∀ i, 7 ≤ i → x.getLsbD i = false) := by
  have hreg (i : Nat) (hi : 4 ≤ i) : (BitVec.ofNat 32 (s.reg p.prc1)).getLsbD i = false :=
    getLsbD_ofNat_of_lt (hs.reg_lt hstack) hi
  have hreg4 : (BitVec.ofNat 32 (s.reg p.prc1))[4] = false := hreg 4 (by decide)
  have hreg5 : (BitVec.ofNat 32 (s.reg p.prc1))[5] = false := hreg 5 (by decide)
  have hreg6 : (BitVec.ofNat 32 (s.reg p.prc1))[6] = false := hreg 6 (by decide)
  have hhalf : Half p s ↔ p.n = 2 ∧ ¬(p.prc2 = some RC_FLOAT ∨ (s.take p.prc1).areg < 8) := by
    rw [Half, not_or, Nat.not_lt]
  simp only [reg_arg] at h
  split at h
  · cases h
  by_cases hzero : v.byref = 0#32
  · rw [if_pos hzero, hzero] at h
    rw [hzero]
    by_cases hn : p.n = 2
    · rw [if_pos hn, if_pos rfl] at h
      split at h
      · by_cases hpair : p.prc2 = some RC_FLOAT ∨ (s.take p.prc1).areg < 8
        · simp only [if_pos hpair, Option.some.injEq, Prod.mk.injEq] at h
          refine ⟨_, h.1.symm, ?_⟩
          simp [hhalf, hn, hpair, hreg4, hreg5, hreg6]
        · simp only [if_neg hpair, Option.some.injEq, Prod.mk.injEq] at h
          refine ⟨_, h.1.symm, ?_⟩
          simp [hhalf, hn, hpair, hreg4, hreg5, hreg6]
      · cases h
    · simp only [if_neg hn, Option.some.injEq, Prod.mk.injEq] at h
      refine ⟨_, h.1.symm, ?_⟩
      simp [hhalf, hn, hreg4, hreg5, hreg6]
  · have hn := hbyref hzero
    simp only [if_neg hzero, if_neg hn, Option.some.injEq, Prod.mk.injEq] at h
    refine ⟨_, h.1.symm, hreg 5 (by decide), hreg 6 (by decide), ?_, fun _ i hi => hreg i (by omega)⟩
    simp [hhalf, hn, hreg4]

/-- The counters after an argument in registers. -/
theorem reg_arg_counters {p : Pass} {v : Passed} {s s' : Counters} {info : BitVec 32}
    (h : reg_arg p v s = some (info, s')) :
    s' = if Half p s then { s.take p.prc1 with stack_adj := (s.take p.prc1).stack_adj + 8 }
      else if p.n = 2 then (s.take p.prc1).take p.prc2 else s.take p.prc1 := by
  have hhalf : Half p s ↔ p.n = 2 ∧ ¬(p.prc2 = some RC_FLOAT ∨ (s.take p.prc1).areg < 8) := by
    rw [Half, not_or, Nat.not_lt]
  simp only [reg_arg] at h
  split at h
  · cases h
  by_cases hn : p.n = 2
  · rw [if_pos hn] at h
    by_cases hpair : p.prc2 = some RC_FLOAT ∨ (s.take p.prc1).areg < 8
    · rw [if_neg (by simp [hhalf, hpair]), if_pos hn]
      simp only [if_pos hpair] at h
      grind
    · rw [if_pos (hhalf.mpr ⟨hn, hpair⟩)]
      simp only [if_neg hpair] at h
      grind
  · rw [if_neg (by simp [hhalf, hn]), if_neg hn]
    rw [if_neg hn, Option.some.injEq, Prod.mk.injEq] at h
    exact h.2.symm

theorem Counters.take_stack_adj (s : Counters) (rc : Option RegClass) :
    (s.take rc).stack_adj = s.stack_adj ∧ (s.take rc).tempspace = s.tempspace := by
  unfold Counters.take
  split <;> exact ⟨rfl, rfl⟩

theorem Counters.take_areg (s : Counters) (rc : Option RegClass) :
    (s.take rc).areg = s.areg + (if rc = some RC_FLOAT then 0 else 1) ∧
      (s.take rc).freg = s.freg + (if rc = some RC_FLOAT then 1 else 0) := by
  unfold Counters.take
  split <;> exact ⟨rfl, rfl⟩

/-- An argument in registers takes registers that are there. -/
theorem reg_arg_ok {p : Pass} {v : Passed} {s s' : Counters} {info : BitVec 32} (hs : s.Ok)
    (hstack : ¬on_stack p s) (hclass : p.prc1 ≠ none) (h : reg_arg p v s = some (info, s')) :
    s'.Ok ∧ s.areg ≤ s'.areg ∧ (Half p s → s.areg < 8 ∧ s'.areg = 8) ∧
      s'.stack_adj = s.stack_adj + (if Half p s then 8 else 0) ∧ s'.tempspace = s.tempspace := by
  have hareg := hs.areg_le
  have hfreg := hs.freg_le
  have htake₁ := s.take_areg p.prc1
  have htake₂ := (s.take p.prc1).take_areg p.prc2
  have hadj₁ := s.take_stack_adj p.prc1
  have hadj₂ := (s.take p.prc1).take_stack_adj p.prc2
  have hcounters := reg_arg_counters h
  have hint : p.prc1 ≠ some RC_FLOAT → p.prc1 = some RC_INT := by
    intro hfloat
    rcases hrc : p.prc1 with - | - | -
    · exact absurd hrc hclass
    · rfl
    · exact absurd hrc hfloat
  rw [on_stack] at hstack
  push Not at hstack
  obtain ⟨hint₁, hfloat₁, hfloat₂, hmixed⟩ := hstack
  by_cases hhalf : Half p s
  · rw [if_pos hhalf] at hcounters ⊢
    obtain ⟨hn, hprc2, hfull⟩ := hhalf
    have hprc1 : p.prc1 ≠ some RC_FLOAT := by
      intro hfloat
      have hroom := (hmixed hn (fun heq => hprc2 (heq ▸ hfloat))).2
      rw [htake₁.1, if_pos hfloat] at hfull
      omega
    have hroom := hint₁ (hint hprc1)
    rw [if_neg hprc1, if_neg hprc1] at htake₁
    subst hcounters
    exact ⟨⟨by simp only; omega, by simp only; omega⟩, by simp only; omega,
      fun _ => ⟨hroom, by simp only; omega⟩, by simp only; omega, hadj₁.2⟩
  · rw [if_neg hhalf] at hcounters ⊢
    have habsurd : Half p s → s.areg < 8 ∧ s'.areg = 8 := fun h => absurd h hhalf
    by_cases hn : p.n = 2
    · rw [if_pos hn] at hcounters
      have hpair : p.prc2 = some RC_FLOAT ∨ (s.take p.prc1).areg < 8 := by
        by_contra hpair
        rw [not_or, Nat.not_lt] at hpair
        exact hhalf ⟨hn, hpair⟩
      subst hcounters
      refine ⟨⟨?_, ?_⟩, ?_, habsurd, hadj₂.1.trans hadj₁.1, hadj₂.2.trans hadj₁.2⟩
      · grind
      · grind
      · grind
    · rw [if_neg hn] at hcounters
      subst hcounters
      refine ⟨⟨?_, ?_⟩, ?_, habsurd, hadj₁⟩
      · grind
      · grind
      · omega

/-- The class of the first register is set before the registers are counted. -/
def Pass.Classed (p : Pass) : Prop := 0 < p.n → p.prc1 ≠ none

theorem Pass.Classed.fail (p : Pass) : p.fail.Classed := by
  intro h
  change (0 : Int) < -1 at h
  omega

theorem Pass.Classed.push {p : Pass} (hn : 0 ≤ p.n) (hp : p.Classed) (rc : RegClass) (fieldofs : Nat) :
    (p.push rc fieldofs).Classed := by
  unfold Pass.push Pass.Classed
  split
  · exact fun _ => nofun
  split
  · exact fun _ => hp (by omega)
  · exact fun _ => hp (by omega)

theorem Pass.Classed.push_float {p : Pass} (hfloat : p.prc1 = some RC_FLOAT) (rc : RegClass)
    (fieldofs : Nat) : (p.push rc fieldofs).Classed := by
  unfold Pass.push Pass.Classed
  split
  · exact fun _ => nofun
  split
  · exact fun _ => by rw [hfloat]; nofun
  · exact fun _ => by rw [hfloat]; nofun

mutual

theorem reg_pass_rec_classed (ofs : Nat) (type : CType) (p : Pass) (hp : p.Classed) :
    (reg_pass_rec ofs type p).Classed := by
  cases type with
  | basic t =>
    rw [reg_pass_rec]
    split
    · exact .fail p
    split
    · exact hp.push (by omega) _ _
    · exact .fail p
  | array elem count =>
    have ih := reg_pass_rec_classed ofs elem p hp
    rw [reg_pass_rec]
    split
    · exact .fail p
    dsimp only
    split
    · exact .fail _
    split
    · exact .push_float (by tauto) _ _
    split
    · exact .fail _
    · exact ih
  | struct union size align fields =>
    rw [reg_pass_rec]
    split
    · exact .fail p
    · exact reg_pass_fields_classed ofs fields p hp

theorem reg_pass_fields_classed (ofs : Nat) (fields : FieldList) (p : Pass) (hp : p.Classed) :
    (reg_pass_fields ofs fields p).Classed := by
  cases fields with
  | nil => exact hp
  | cons c type rest =>
    rw [reg_pass_fields]
    exact reg_pass_fields_classed ofs rest _ (reg_pass_rec_classed (ofs + c) type p hp)

end

theorem reg_pass_prc1 (type : CType) (named : Bool) : (reg_pass type named).prc1 ≠ none := by
  have hclassed := reg_pass_rec_classed 0 type .start (fun h => absurd h (by decide))
  unfold reg_pass
  simp only
  split
  · nofun
  · exact hclassed (by omega)

/-- An argument of more than two words is not taken for two scalars. -/
def KeepsOffset (a : CallArg) : Prop := 16 < a.size → (reg_pass a.type a.named).n ≠ 2

/-- What the first loop of `gfunc_call` finds for an argument. -/
structure Sized (a : CallArg) (s : Counters) (info : BitVec 32) (s' : Counters) : Prop where
  ok : s'.Ok
  areg_le : s.areg ≤ s'.areg
  stack_adj_eq : s'.stack_adj = s.stack_adj + 8 * (use a s).words
  tempspace_eq : s'.tempspace = (pass_by_reference a s.tempspace).tempspace
  stacked : info &&& 32#32 ≠ 0#32 ↔ use a s =
    .stacked (pass_by_reference a s.tempspace).size (pass_by_reference a s.tempspace).align
  half : info &&& 32#32 = 0#32 ∧ info &&& 16#32 ≠ 0#32 ↔ use a s = .half
  half_areg : use a s = .half → s.areg < 8 ∧ s'.areg = 8
  byref : info &&& 64#32 ≠ 0#32 ↔ 16 < a.size
  copy : 16 < a.size → align_up (xalign a.align) s.tempspace < 2 ^ 24 →
    (info.sshiftRight 7).toInt = align_up (xalign a.align) s.tempspace

theorem pass_by_reference_of_le {a : CallArg} (h : a.size ≤ 16) (t : Nat) :
    pass_by_reference a t = ⟨a.size, a.align, 0#32, t⟩ := if_neg (by omega)

theorem pass_by_reference_of_lt {a : CallArg} (h : 16 < a.size) (t : Nat) :
    pass_by_reference a t = ⟨8, 8, 64#32 ||| BitVec.ofNat 32 (align_up (xalign a.align) t) <<< 7,
      align_up (xalign a.align) t + a.size⟩ := if_pos h

theorem Counters.even_eq (s : Counters) (a : CallArg) (v : Passed) :
    (s.even a v).freg = s.freg ∧ (s.even a v).stack_adj = s.stack_adj ∧
      (s.even a v).tempspace = s.tempspace ∧ s.areg ≤ (s.even a v).areg ∧
      (s.areg ≤ 8 → (s.even a v).areg ≤ 8) := by
  unfold Counters.even
  split
  · exact ⟨rfl, rfl, rfl, by simp only; omega, by simp only; omega⟩
  · exact ⟨rfl, rfl, rfl, le_rfl, id⟩

theorem Counters.even_tempspace (s : Counters) (a : CallArg) (v : Passed) (t : Nat) :
    { s with tempspace := t }.even a v = { s.even a v with tempspace := t } := by
  unfold Counters.even
  split <;> rfl

theorem use_eq (a : CallArg) (s : Counters) :
    use a s =
      let v := pass_by_reference a s.tempspace
      let p := reg_pass a.type a.named
      let s := { s with tempspace := v.tempspace }.even a v
      if v.size = 0 then .none
      else if on_stack p s then .stacked v.size v.align
      else if Half p s then .half
      else .none := by
  simp only [use, Half, Counters.take_areg, Counters.even_tempspace]
  rfl

theorem byref_bits (a : CallArg) (t : Nat) :
    (pass_by_reference a t).byref.getLsbD 4 = false ∧ (pass_by_reference a t).byref.getLsbD 5 = false ∧
      ((pass_by_reference a t).byref.getLsbD 6 = true ↔ 16 < a.size) := by
  by_cases hsize : 16 < a.size
  · rw [pass_by_reference_of_lt hsize]
    simp [hsize]
  · rw [pass_by_reference_of_le (by omega)]
    simp [hsize]

theorem byref_ne_zero (a : CallArg) (t : Nat) : (pass_by_reference a t).byref ≠ 0#32 ↔ 16 < a.size := by
  have hbits := byref_bits a t
  constructor
  · intro hne
    by_contra hsize
    rw [pass_by_reference_of_le (by omega)] at hne
    exact hne rfl
  · intro hsize hzero
    have hbit := hbits.2.2.mpr hsize
    rw [hzero] at hbit
    cases hbit

theorem eight_dvd_xalign {align : Nat} (hpow : ∃ k, align = 2 ^ k) : 8 ∣ xalign align := by
  obtain ⟨k, rfl⟩ := hpow
  unfold xalign
  split
  · exact dvd_rfl
  · by_cases hk : k < 3
    · have hlt : 2 ^ k < 2 ^ 3 := Nat.pow_lt_pow_right (by decide) hk
      omega
    · exact pow_dvd_pow 2 (Nat.not_lt.mp hk)

theorem CallArg.passed_align (a : CallArg) (t : Nat) :
    ∃ k, (pass_by_reference a t).align = 2 ^ k := by
  by_cases hsize : 16 < a.size
  · rw [pass_by_reference_of_lt hsize]
    exact ⟨3, rfl⟩
  · rw [pass_by_reference_of_le (by omega)]
    exact a.align_pow

/-- The flags of an argument, after those of a copy have been added. -/
theorem info_flags {a : CallArg} {t : Nat} {x info : BitVec 32}
    (hinfo : info = x ||| (pass_by_reference a t).byref) :
    (info &&& 16#32 ≠ 0#32 ↔ x.getLsbD 4 = true) ∧ (info &&& 32#32 ≠ 0#32 ↔ x.getLsbD 5 = true) ∧
      (x.getLsbD 6 = false → (info &&& 64#32 ≠ 0#32 ↔ 16 < a.size)) ∧
      (16 < a.size → (∀ i, 7 ≤ i → x.getLsbD i = false) →
        align_up (xalign a.align) t < 2 ^ 24 →
          (info.sshiftRight 7).toInt = align_up (xalign a.align) t) := by
  obtain ⟨h4, h5, h6⟩ := byref_bits a t
  rw [and_16_ne_zero, and_32_ne_zero, and_64_ne_zero, hinfo, BitVec.getLsbD_or, BitVec.getLsbD_or,
    BitVec.getLsbD_or, h4, h5, Bool.or_false, Bool.or_false]
  refine ⟨Iff.rfl, Iff.rfl, fun hx => by rw [hx, Bool.false_or, h6], fun hsize hx ht => ?_⟩
  rw [pass_by_reference_of_lt hsize]
  exact sshiftRight_info hx ht

theorem size_arg_sized {a : CallArg} {s s' : Counters} {info : BitVec 32} (hs : s.Ok)
    (hkeeps : KeepsOffset a) (h : size_arg a s = some (info, s')) : Sized a s info s' := by
  rw [size_arg_eq] at h
  have huse := use_eq a s
  have hbyref := byref_ne_zero a s.tempspace
  have hpow := a.passed_align s.tempspace
  have hflags {x : BitVec 32} (hx : info = x ||| (pass_by_reference a s.tempspace).byref) :=
    info_flags hx
  have heven := Counters.even_eq
    { s with tempspace := (pass_by_reference a s.tempspace).tempspace } a
    (pass_by_reference a s.tempspace)
  simp only at h huse heven
  generalize { s with tempspace := (pass_by_reference a s.tempspace).tempspace }.even a
    (pass_by_reference a s.tempspace) = s₁ at h huse heven
  obtain ⟨hfreg, hadj, htemp, hareg, hareg_le⟩ := heven
  have hok : s₁.Ok := ⟨hareg_le hs.areg_le, hfreg ▸ hs.freg_le⟩
  by_cases hzero : (pass_by_reference a s.tempspace).size = 0
  · rw [if_pos hzero, Option.some.injEq, Prod.mk.injEq] at h
    rw [if_pos hzero] at huse
    obtain ⟨hinfo, rfl⟩ := h
    obtain ⟨h16, h32, h64, hcopy⟩ := hflags hinfo.symm
    refine ⟨hok, hareg, ?_, htemp, ?_, ?_, ?_, h64 (by decide), fun hsize => hcopy hsize (by simp)⟩
    · rw [hadj, huse]
      rfl
    · rw [h32, huse]
      simp
    · rw [h16, huse]
      simp
    · rw [huse]
      nofun
  rw [if_neg hzero] at h huse
  by_cases hstack : on_stack (reg_pass a.type a.named) s₁
  · rw [if_pos hstack, Option.some.injEq, Prod.mk.injEq] at h
    rw [if_pos hstack] at huse
    obtain ⟨hinfo, hs'⟩ := h
    obtain ⟨h16, h32, h64, hcopy⟩ := hflags hinfo.symm
    have h32' : info &&& 32#32 ≠ 0#32 := h32.mpr (by decide)
    have hcopy' := fun hsize => hcopy hsize (fun i hi => getLsbD_ofNat_of_lt (k := 6) (by decide)
      (by omega))
    have hdvd : 8 ∣ align_up (xalign (pass_by_reference a s.tempspace).align)
        (pass_by_reference a s.tempspace).size :=
      (eight_dvd_xalign hpow).trans (Dvd.intro_left _ rfl)
    have hwords := Nat.mul_div_cancel' hdvd
    have hs'_eq : s'.Ok ∧ s.areg ≤ s'.areg ∧ s'.tempspace = s₁.tempspace ∧ s'.stack_adj =
        s₁.stack_adj + align_up (xalign (pass_by_reference a s.tempspace).align)
          (pass_by_reference a s.tempspace).size := by
      have hareg8 := hs.areg_le
      rw [← hs']
      cases a.named with
      | true => exact ⟨⟨hok.1, hok.2⟩, hareg, rfl, rfl⟩
      | false => exact ⟨⟨le_rfl, le_rfl⟩, hareg8, rfl, rfl⟩
    refine ⟨hs'_eq.1, hs'_eq.2.1, ?_, hs'_eq.2.2.1.trans htemp, ?_, ?_, ?_, h64 (by decide), hcopy'⟩
    · rw [hs'_eq.2.2.2, hadj, huse, Use.words, hwords]
    · exact iff_of_true h32' huse
    · rw [huse]
      exact iff_of_false (fun h => h32' h.1) nofun
    · rw [huse]
      nofun
  · rw [if_neg hstack] at h huse
    obtain ⟨x, hinfo, hx5, hx6, hx4, hx⟩ := reg_arg_info hok hstack
      (fun hne => hkeeps (hbyref.mp hne)) h
    obtain ⟨hok', hareg', hhalf, hadj', htemp'⟩ :=
      reg_arg_ok hok hstack (reg_pass_prc1 a.type a.named) h
    obtain ⟨h16, h32, h64, hcopy⟩ := hflags hinfo
    rw [hx5] at h32
    have h32' : info &&& 32#32 = 0#32 := by
      by_contra hne
      cases h32.mp hne
    have huse_half : use a s = .half ↔ Half (reg_pass a.type a.named) s₁ := by
      rw [huse]
      split <;> simp [*]
    have huse_stacked (size align : Nat) : use a s ≠ .stacked size align := by
      rw [huse]
      split <;> nofun
    refine ⟨hok', hareg.trans hareg', ?_, htemp'.trans htemp, ?_, ?_, ?_, h64 hx6,
      fun hsize => hcopy hsize (hx (hbyref.mpr hsize))⟩
    · rw [hadj', hadj, huse]
      split <;> rfl
    · exact iff_of_false (not_not.mpr h32') (huse_stacked _ _)
    · rw [huse_half, h16, hx4]
      exact and_iff_right h32'
    · intro hu
      have hroom := hhalf (huse_half.mp hu)
      exact ⟨by omega, hroom.2⟩

end tcc.riscv64
