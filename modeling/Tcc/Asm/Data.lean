import Mathlib.Order.Lattice.Nat
import Tcc.Asm.SectionStack
import Tcc.Asm.ExprValue

/-! The bytes of the directives that emit data. -/

open tcc.asm.expr

namespace tcc.asm.data

/-- A data directive as it is written: `.word` is `.short`, and `.long` is `.int`. The operands are
    results of `asm_expr`, but for `.quad`, which takes the text of numbers. -/
inductive DataDirective where
  | byte (values : List PcrelValue)
  | short (values : List PcrelValue)
  | int (values : List PcrelValue)
  | quad (constants : List (List Byte))
  | fill (repeats : PcrelValue) (size val : Option PcrelValue)

/-- `strtoll(p, &p, 0)` for a text with no sign before the number. -/
def strtoll (p : List Byte) : BitVec 64 × List Byte :=
  (BitVec.ofNat 64 (min (literal p) (2 ^ 63 - 1)), (strtoull p).2)

def quad_constant (p : List Byte) : Result (BitVec 64) :=
  let (vl, p) := strtoll p
  if p ≠ [] then throw (.error "64 bit constant") else return vl

def DataDirective.exec (d : DataDirective) (s : AsmState) : Result AsmState :=
  match d with
  | byte values => (Directive.byte (values.map PcrelValue.toExprValue)).step s
  | short values => (Directive.short (values.map PcrelValue.toExprValue)).step s
  | int values => (Directive.int (values.map PcrelValue.toExprValue)).step s
  | quad constants => do
    let values ← constants.mapM quad_constant
    (Directive.quad values).step s
  | fill repeats size val =>
    (Directive.fill repeats.toExprValue (size.map PcrelValue.toExprValue)
      (val.map PcrelValue.toExprValue)).step s

/-- The little-endian encoding with `n` bytes. -/
def le_bytes : Nat → BitVec 64 → List Byte
  | 0, _ => []
  | n + 1, v => v.setWidth 8 :: le_bytes n (v >>> 8)

/-- The encodings of operands from the address `here` on. -/
def values_bytes (n : Nat) (addr : Nat → BitVec 64) : BitVec 64 → List PcrelValue → List Byte
  | _, [] => []
  | here, r :: rs => le_bytes n (r.final addr here) ++ values_bytes n addr (here + BitVec.ofNat 64 n) rs

def constant (v : BitVec 64) : PcrelValue := ⟨⟨v, none⟩, false⟩

/-- The bytes that a directive at the address `here` is for, where the symbols have their addresses. -/
def DataDirective.bytes (d : DataDirective) (addr : Nat → BitVec 64) (here : BitVec 64) : List Byte :=
  match d with
  | byte values => values_bytes 1 addr here values
  | short values => values_bytes 2 addr here values
  | int values => values_bytes 4 addr here values
  | quad constants => constants.flatMap fun p => le_bytes 8 (BitVec.ofNat 64 (literal p))
  | fill repeats size val =>
    (List.replicate (repeats.final addr here).toNat
      (le_bytes (min 8 ((size.getD (constant 1)).final addr here).toNat)
        ((val.getD (constant 0)).final addr here))).flatten

/-- A byte of a section in the output. A section without contents is all zeros. -/
def contents (sec : Section) (o : Nat) : Byte := if sec.nobits then 0 else sec.data o

/-- What was emitted is those bytes, wherever the sections and the symbols are placed, and nothing else was
    written. There is no relocation, so that the linker changes none of the bytes. -/
structure DataDirective.Meets (d : DataDirective) (s s' : AsmState) : Prop where
  other : Local s s'
  outside : ∀ o : Nat, (o : Int) < s.ind.toInt ∨ s'.ind.toInt ≤ o → s'.cur.data o = s.cur.data o
  position : ∀ addr here, s'.ind.toInt = s.ind.toInt + (d.bytes addr here).length
  emitted : ∀ addr here, (List.range (d.bytes addr here).length).map (fun k =>
    contents s'.cur (s.ind.toNat + k)) = d.bytes addr here

/-- Neither a symbol nor the place. -/
def Absolute (r : PcrelValue) : Prop := r.sym = none ∧ r.pcrel = false

/-- The operands have no symbol and are not relative to the place. Where the section has no contents they
    are zero in `n` bytes, and there is room. -/
def ValuesExact (n : Nat) (values : List PcrelValue) (s : AsmState) : Prop :=
  (∀ r ∈ values, Absolute r) ∧
    (s.cur.nobits = true → (∀ r ∈ values, le_bytes n r.v = List.replicate n 0) ∧
      s.ind.toInt + n * values.length < 2 ^ 31)

/-- The numbers are below 2^63 (or leave the greatest such number modulo 2^64). -/
def ConstantsExact (constants : List (List Byte)) (s : AsmState) : Prop :=
  if s.cur.nobits then
    (∀ p ∈ constants, literal p % 2 ^ 64 = 0) ∧ s.ind.toInt + 8 * constants.length < 2 ^ 31
  else ∀ p ∈ constants, literal p < 2 ^ 63 ∨ literal p % 2 ^ 64 = 2 ^ 63 - 1

/-- There is nothing to emit, or the operands are numbers that fit: the bytes of the value after the fourth
    one, as many as are asked for, are zero. -/
def FillExact (repeats size val : PcrelValue) (s : AsmState) : Prop :=
  (Absolute repeats ∧ repeats.v = 0) ∨ (Absolute size ∧ size.v = 0) ∨
    (Absolute repeats ∧ Absolute size ∧ Absolute val ∧ repeats.v.toNat < 2 ^ 31 ∧
      min 8 (size.v.toNat % 2 ^ 32) = min 8 size.v.toNat ∧
      if s.cur.nobits then le_bytes (min 8 size.v.toNat) val.v = List.replicate (min 8 size.v.toNat) 0
      else val.v.toNat % 2 ^ (8 * min 8 size.v.toNat) < 2 ^ 32)

def DataDirective.Exact (d : DataDirective) (s : AsmState) : Prop :=
  match d with
  | byte values => ValuesExact 1 values s
  | short values => ValuesExact 2 values s
  | int values => ValuesExact 4 values s
  | quad constants => ConstantsExact constants s
  | fill repeats size val => FillExact repeats (size.getD (constant 1)) (val.getD (constant 0)) s

section emission

variable {s s' s₁ s₂ : AsmState} {bytes : List Byte} {b : Bool}

/-- Bytes were written at the position. -/
structure Emits (bytes : List Byte) (s s' : AsmState) : Prop where
  other : Local s s'
  length : s'.sections.length = s.sections.length
  nobits : s'.cur.nobits = s.cur.nobits
  ind : s'.ind.toInt = s.ind.toInt + bytes.length
  outside : ∀ o : Nat, (o : Int) < s.ind.toInt ∨ s'.ind.toInt ≤ o → s'.cur.data o = s.cur.data o
  written : ∀ k < bytes.length, bytes[k]? = some (s'.cur.data (s.ind.toNat + k))

theorem Emits.refl (s : AsmState) : Emits [] s s :=
  ⟨Local.refl s, rfl, rfl, by simp, fun _ _ => rfl, fun k hk => absurd hk (Nat.not_lt_zero k)⟩

theorem Emits.trans {bytes' : List Byte} (hind : 0 ≤ s.ind.toInt) (h₁ : Emits bytes s s₁)
    (h₂ : Emits bytes' s₁ s₂) : Emits (bytes ++ bytes') s s₂ := by
  have hi₁ := h₁.ind
  have hi₂ := h₂.ind
  have hnat := (toInt_of_nonneg hind).1
  have hnat₁ := (@toInt_of_nonneg s₁.ind (by omega)).1
  refine ⟨h₁.other.trans h₂.other, h₂.length.trans h₁.length, h₂.nobits.trans h₁.nobits, ?_, ?_, ?_⟩
  · rw [List.length_append]
    push_cast
    omega
  · intro o ho
    rw [h₂.outside o (by omega), h₁.outside o (by omega)]
  · intro k hk
    rw [List.length_append] at hk
    by_cases hlt : k < bytes.length
    · rw [List.getElem?_append_left hlt, h₁.written k hlt, h₂.outside _ (by omega)]
    · have hpos : s₁.ind.toNat + (k - bytes.length) = s.ind.toNat + k := by omega
      rw [List.getElem?_append_right (by omega), h₂.written _ (by omega), hpos]

theorem emits_g {c : Byte} (hcur : s.cur_text_section < s.sections.length) (hind : 0 ≤ s.ind.toInt)
    (hstep : g c s = .ok s') : Emits [c] s s' := by
  have hlocal := local_g hstep
  rw [g] at hstep
  split at hstep
  · cases hstep
  · rename_i hcond
    simp only [Bool.or_eq_true, beq_iff_eq, not_or, Bool.not_eq_true] at hcond
    obtain ⟨hpos, hlt⟩ := toInt_of_nonneg hind
    have hmax : s.ind.toInt + (1#32).toInt < 2 ^ 31 := by
      have hne : s.ind.toNat ≠ (BitVec.intMax 32).toNat := fun heq => hcond.2 (BitVec.eq_of_toNat_eq heq)
      have hval : (BitVec.intMax 32).toNat = 2 ^ 31 - 1 := by decide
      have hone : (1#32).toInt = 1 := by decide
      omega
    have hadd : (s.ind + 1).toInt = s.ind.toInt + 1 := toInt_add_of_lt hind (by decide) hmax
    obtain ⟨sec, hsec⟩ : ∃ sec, sec = { s.cur with data := Function.update s.cur.data s.ind.toNat c } :=
      ⟨_, rfl⟩
    have hs' : s' = { s.set_section s.cur_text_section sec with ind := s.ind + 1 } := by
      rw [hsec]
      exact (Except.ok.inj hstep).symm
    have hcur' : s'.cur = sec := by
      rw [hs']
      exact section_at_set hcur
    have hind' : s'.ind = s.ind + 1 := by rw [hs']
    refine ⟨hlocal, ?_, ?_, ?_, fun o ho => ?_, fun k hk => ?_⟩
    · rw [hs']
      exact length_set_section
    · rw [hcur', hsec]
    · rw [hind', hadd]
      rfl
    · rw [hind', hadd] at ho
      rw [hcur', hsec]
      exact Function.update_of_ne (by omega) _ _
    · obtain rfl : k = 0 := Nat.lt_one_iff.mp hk
      rw [hcur', hsec]
      simp

/-- The state allows for more bytes. -/
structure Ready (s : AsmState) : Prop where
  cur : s.cur_text_section < s.sections.length
  ind : 0 ≤ s.ind.toInt

theorem Emits.ready (h : Emits bytes s s') (hs : Ready s) : Ready s' := by
  refine ⟨?_, ?_⟩
  · rw [h.length, h.other.cur]
    exact hs.cur
  · have hle := hs.ind
    have hind := h.ind
    omega

/-- What emits one thing after another. -/
theorem emits_bind {f f' : AsmState → Result AsmState} {bytes' : List Byte} (hs : Ready s)
    (hf : ∀ s₁, f s = .ok s₁ → Emits bytes s s₁)
    (hf' : ∀ s₁ s₂, Ready s₁ → f' s₁ = .ok s₂ → Emits bytes' s₁ s₂) (hstep : f s >>= f' = .ok s') :
    Emits (bytes ++ bytes') s s' := by
  obtain ⟨s₁, h₁, h₂⟩ := bind_ok.mp hstep
  have hfirst := hf s₁ h₁
  exact hfirst.trans hs.ind (hf' s₁ s' (hfirst.ready hs) h₂)

theorem emits_foldlM {α : Type} {f : AsmState → α → Result AsmState} {enc : α → List Byte} {l : List α}
    (hf : ∀ a ∈ l, ∀ s s', Ready s → s.cur.nobits = b → f s a = .ok s' → Emits (enc a) s s')
    (hs : Ready s) (hb : s.cur.nobits = b) (hstep : l.foldlM f s = .ok s') : Emits (l.flatMap enc) s s' := by
  induction l generalizing s with
  | nil =>
    obtain rfl := Except.ok.inj hstep
    exact Emits.refl s
  | cons a l ih =>
    rw [List.foldlM_cons] at hstep
    obtain ⟨s₁, h₁, hstep⟩ := bind_ok.mp hstep
    have hfirst := hf a List.mem_cons_self s s₁ hs hb h₁
    rw [List.flatMap_cons]
    exact hfirst.trans hs.ind
      (ih (fun a ha => hf a (List.mem_cons_of_mem _ ha)) (hfirst.ready hs) (hfirst.nobits.trans hb) hstep)

theorem emits_g_all (hs : Ready s) (hstep : g_all bytes s = .ok s') : Emits bytes s s' := by
  have h := @emits_foldlM s s' _ Byte (fun s c => g c s) (fun c => [c]) bytes
    (fun c _ s s' hs _ hstep => emits_g hs.cur hs.ind hstep) hs rfl hstep
  rwa [List.flatMap_singleton'] at h

theorem setWidth_shift (v : BitVec 64) {i : Nat} (hi : i ≤ 24) :
    ((v.setWidth 32 : BitVec 32) >>> i).setWidth 8 = ((v >>> i).setWidth 8 : BitVec 8) := by
  apply BitVec.eq_of_getLsbD_eq
  intro j hj
  simp only [BitVec.getLsbD_setWidth, BitVec.getLsbD_ushiftRight]
  have hlt : i + j < 32 := by omega
  simp [hj, hlt]

theorem emits_gen_le16 {v : BitVec 64} (hs : Ready s) (hstep : gen_le16 (v.setWidth 32) s = .ok s') :
    Emits (le_bytes 2 v) s s' := by
  have hbytes : le_bytes 2 v =
      [(v.setWidth 32 : BitVec 32).setWidth 8, ((v.setWidth 32 : BitVec 32) >>> 8).setWidth 8] := by
    rw [setWidth_shift v (by decide)]
    simp [le_bytes]
  rw [hbytes]
  refine emits_g_all hs ?_
  rw [← hstep]
  simp [g_all, gen_le16]

theorem emits_gen_le32 {v : BitVec 64} (hs : Ready s) (hstep : gen_le32 (v.setWidth 32) s = .ok s') :
    Emits (le_bytes 4 v) s s' := by
  have hbytes : le_bytes 4 v =
      [(v.setWidth 32 : BitVec 32).setWidth 8, ((v.setWidth 32 : BitVec 32) >>> 8).setWidth 8,
        ((v.setWidth 32 : BitVec 32) >>> 16).setWidth 8,
          ((v.setWidth 32 : BitVec 32) >>> 24).setWidth 8] := by
    rw [setWidth_shift v (by decide), setWidth_shift v (by decide), setWidth_shift v (by decide)]
    simp [le_bytes]
  rw [hbytes]
  refine emits_g_all hs ?_
  rw [← hstep]
  simp [g_all, gen_le32]

theorem le_bytes_eight (v : BitVec 64) : le_bytes 8 v = le_bytes 4 v ++ le_bytes 4 (v >>> 32) := by
  simp [le_bytes]

theorem emits_gen_quad {vl : BitVec 64} (hs : Ready s) (hbits : s.cur.nobits = false)
    (hstep : gen_quad vl s = .ok s') : Emits (le_bytes 8 vl) s s' := by
  rw [gen_quad, if_neg (by rw [hbits]; exact Bool.false_ne_true)] at hstep
  rw [le_bytes_eight]
  exact emits_bind hs (fun _ => emits_gen_le32 hs) (fun _ _ => emits_gen_le32) hstep

theorem emits_asm_data {n : Nat} {size : BitVec 32} {emit : ExprValue → AsmState → Result AsmState}
    {values : List PcrelValue} (hs : Ready s) (hbits : s.cur.nobits = false)
    (hemit : ∀ e s s', Ready s → emit e s = .ok s' → Emits (le_bytes n e.v) s s')
    (hstep : asm_data size emit (values.map PcrelValue.toExprValue) s = .ok s') :
    Emits (values.flatMap fun r => le_bytes n r.v) s s' := by
  rw [asm_data] at hstep
  have h := @emits_foldlM s s' false ExprValue _ (fun e => le_bytes n e.v)
    (values.map PcrelValue.toExprValue) (fun e _ s s' hs hb hstep => ?_) hs hbits hstep
  · rwa [List.flatMap_map] at h
  · rw [if_neg (by rw [hb]; exact Bool.false_ne_true)] at hstep
    exact hemit e s s' hs hstep

theorem emits_asm_constant {n : Nat} {emit : BitVec 32 → AsmState → Result AsmState}
    (hemit : ∀ (v : BitVec 64) s s', Ready s → emit (v.setWidth 32) s = .ok s' → Emits (le_bytes n v) s s')
    (e : ExprValue) (s s' : AsmState) (hs : Ready s) (hstep : asm_constant emit e s = .ok s') :
    Emits (le_bytes n e.v) s s' := by
  rw [asm_constant] at hstep
  split at hstep
  · cases hstep
  · exact hemit e.v s s' hs hstep

/-- Where the section has no contents the position moves. -/
theorem skips_foldlM {α : Type} {f : AsmState → α → Result AsmState} {n : Nat}
    (hf : ∀ s a, s.cur.nobits = true → f s a = pure { s with ind := s.ind + BitVec.ofNat 32 n })
    {l : List α} (hnobits : s.cur.nobits = true) :
    l.foldlM f s = .ok { s with ind := s.ind + BitVec.ofNat 32 (n * l.length) } := by
  induction l generalizing s with
  | nil => simp [pure, Except.pure]
  | cons a l ih =>
    have hind : s.ind + BitVec.ofNat 32 n + BitVec.ofNat 32 (n * l.length) =
        s.ind + BitVec.ofNat 32 (n * (l.length + 1)) := by
      rw [BitVec.add_assoc, ← BitVec.ofNat_add]
      congr 2
      ring
    rw [List.foldlM_cons, hf s a hnobits, List.length_cons, ← hind]
    exact @ih { s with ind := s.ind + BitVec.ofNat 32 n } hnobits

end emission

section meets

variable {d : DataDirective} {s s' : AsmState} {out : List Byte}

theorem contents_of_emits (hemits : Emits out s s') :
    (List.range out.length).map (fun k => contents s'.cur (s.ind.toNat + k)) =
      if s.cur.nobits then List.replicate out.length 0 else out := by
  refine List.ext_getElem? fun k => ?_
  rw [List.getElem?_map]
  by_cases hk : k < out.length
  · rw [List.getElem?_range hk, Option.map_some, contents, hemits.nobits]
    split
    · rw [List.getElem?_replicate_of_lt hk]
    · exact (hemits.written k hk).symm
  · have hle := Nat.le_of_not_lt hk
    rw [List.getElem?_eq_none (by rw [List.length_range]; exact hle), Option.map_none]
    split
    · rw [List.getElem?_eq_none (by rw [List.length_replicate]; exact hle)]
    · rw [List.getElem?_eq_none hle]

theorem length_contents (out : List Byte) (b : Bool) :
    (if b then List.replicate out.length 0 else out).length = out.length := by
  cases b <;> simp

/-- What a directive is for is compared with what it has emitted. -/
theorem meets_iff_of_emits (hemits : Emits out s s') :
    d.Meets s s' ↔
      ∀ addr here, d.bytes addr here = if s.cur.nobits then List.replicate out.length 0 else out := by
  have hind := hemits.ind
  have hcontents := contents_of_emits hemits
  constructor
  · intro h addr here
    have hposition := h.position addr here
    have hlength : (d.bytes addr here).length = out.length := by omega
    rw [← h.emitted addr here, hlength]
    exact hcontents
  · intro h
    have hlength (addr here) : (d.bytes addr here).length = out.length := by
      rw [h addr here, length_contents]
    refine ⟨hemits.other, hemits.outside, fun addr here => ?_, fun addr here => ?_⟩
    · rw [hlength]
      exact hind
    · rw [hlength, h addr here]
      exact hcontents

theorem meets_iff_of_skips {n : Nat} (hs : Ready s) (hnobits : s.cur.nobits = true)
    (hlength : ∀ addr here, (d.bytes addr here).length = n)
    (hs' : s' = { s with ind := s.ind + BitVec.ofNat 32 n }) :
    d.Meets s s' ↔ (∀ addr here, d.bytes addr here = List.replicate n 0) ∧ s.ind.toInt + n < 2 ^ 31 := by
  have hcur : s'.cur = s.cur := by rw [hs']; rfl
  have hind : s'.ind = s.ind + BitVec.ofNat 32 n := by rw [hs']
  have hcontents : (List.range n).map (fun k => contents s'.cur (s.ind.toNat + k)) = List.replicate n 0 := by
    rw [hcur]
    simp [contents, hnobits]
  constructor
  · intro h
    refine ⟨fun addr here => ?_, ?_⟩
    · rw [← h.emitted addr here, hlength]
      exact hcontents
    · have hposition := h.position (fun _ => 0) 0
      rw [hlength] at hposition
      have hlt := BitVec.toInt_lt (x := s'.ind)
      omega
  · rintro ⟨hbytes, hroom⟩
    refine ⟨?_, fun o _ => by rw [hcur], fun addr here => ?_, fun addr here => ?_⟩
    · rw [hs']
      exact local_ind _
    · have hnonneg := hs.ind
      have hnat : (BitVec.ofNat 32 n).toNat = n := by
        rw [BitVec.toNat_ofNat]
        omega
      have hint : (BitVec.ofNat 32 n).toInt = n := by
        rw [BitVec.toInt_eq_toNat_of_lt, hnat]
        rw [hnat]
        omega
      rw [hind, hlength, toInt_add_of_lt hs.ind (by omega) (by omega), hint]
    · rw [hlength, hbytes]
      exact hcontents

theorem length_le_bytes (n : Nat) (v : BitVec 64) : (le_bytes n v).length = n := by
  induction n generalizing v with
  | zero => rfl
  | succ n ih => rw [le_bytes, List.length_cons, ih]

theorem length_values_bytes (n : Nat) (addr : Nat → BitVec 64) (here : BitVec 64) (rs : List PcrelValue) :
    (values_bytes n addr here rs).length = n * rs.length := by
  induction rs generalizing here with
  | nil => rfl
  | cons r rs ih =>
    rw [values_bytes, List.length_append, length_le_bytes, ih, List.length_cons]
    ring

theorem final_absolute {r : PcrelValue} (h : Absolute r) (addr : Nat → BitVec 64) (here : BitVec 64) :
    r.final addr here = r.v := by
  rw [PcrelValue.final, h.1, h.2]
  simp

/-- What is not a number has values that follow each other. -/
theorem exists_final_succ {r : PcrelValue} (h : ¬ Absolute r) :
    ∃ addr addr' here here', r.final addr' here' = r.final addr here + 1 := by
  by_cases hsym : r.sym = none
  · have hpcrel : r.pcrel = true := by
      cases hp : r.pcrel with
      | false => exact absurd ⟨hsym, hp⟩ h
      | true => rfl
    refine ⟨fun _ => 0, fun _ => 0, 0, -1, ?_⟩
    rw [PcrelValue.final, PcrelValue.final, hsym, hpcrel]
    simp
    bv_omega
  · obtain ⟨sym, hsym⟩ := Option.ne_none_iff_exists'.mp hsym
    refine ⟨fun _ => 0, fun _ => 1, 0, 0, ?_⟩
    rw [PcrelValue.final, PcrelValue.final, hsym]
    simp
    ring

/-- An encoding that does not depend on the placement is that of a number. -/
theorem le_bytes_const_iff {n : Nat} (hn : 0 < n) {r : PcrelValue} :
    (∀ addr here, le_bytes n (r.final addr here) = out) ↔ Absolute r ∧ le_bytes n r.v = out := by
  constructor
  · intro h
    by_cases habs : Absolute r
    · refine ⟨habs, ?_⟩
      rw [← h (fun _ => 0) 0, final_absolute habs]
    · obtain ⟨addr, addr', here, here', hsucc⟩ := exists_final_succ habs
      have heq := (h addr here).trans (h addr' here').symm
      obtain ⟨n, rfl⟩ := Nat.exists_eq_succ_of_ne_zero (Nat.ne_of_gt hn)
      rw [hsucc, le_bytes, le_bytes] at heq
      have hhead := (List.cons.inj heq).1
      rw [BitVec.setWidth_add _ _ (by decide)] at hhead
      have hone : (BitVec.setWidth 8 (1 : BitVec 64)) = 0 := by
        exact (BitVec.self_eq_add_right.mp hhead)
      exact absurd hone (by decide)
  · rintro ⟨habs, hout⟩ addr here
    rw [final_absolute habs, hout]

theorem values_bytes_iff {n : Nat} {enc : PcrelValue → List Byte} (hn : 0 < n)
    (henc : ∀ r, (enc r).length = n) (rs : List PcrelValue) :
    (∀ addr here, values_bytes n addr here rs = rs.flatMap enc) ↔
      ∀ r ∈ rs, Absolute r ∧ le_bytes n r.v = enc r := by
  induction rs with
  | nil => simp [values_bytes]
  | cons r rs ih =>
    rw [List.forall_mem_cons, ← ih, ← le_bytes_const_iff hn]
    have hlength (addr here) : (le_bytes n (r.final addr here)).length = (enc r).length := by
      rw [length_le_bytes, henc]
    constructor
    · intro h
      refine ⟨fun addr here => ?_, fun addr here => ?_⟩
      · exact (List.append_inj (h addr here) (hlength addr here)).1
      · have hrest := (List.append_inj (h addr (here - BitVec.ofNat 64 n)) (hlength _ _)).2
        rwa [BitVec.sub_add_cancel] at hrest
    · rintro ⟨hfirst, hrest⟩ addr here
      rw [values_bytes, hfirst, hrest, List.flatMap_cons]

theorem flatMap_zero {α : Type} (n : Nat) (l : List α) :
    l.flatMap (fun _ => List.replicate n (0 : Byte)) = List.replicate (n * l.length) 0 := by
  induction l with
  | nil => rfl
  | cons a l ih =>
    rw [List.flatMap_cons, ih, List.replicate_append_replicate, List.length_cons]
    congr 1
    ring

theorem meets_values {n : Nat} {values : List PcrelValue} (hs : Ready s) (hn : 0 < n)
    (hbytes : ∀ addr here, d.bytes addr here = values_bytes n addr here values)
    (hbits : s.cur.nobits = false → Emits (values.flatMap fun r => le_bytes n r.v) s s')
    (hskips : s.cur.nobits = true → s' = { s with ind := s.ind + BitVec.ofNat 32 (n * values.length) }) :
    d.Meets s s' ↔ ValuesExact n values s := by
  have hlength (addr here) : (d.bytes addr here).length = n * values.length := by
    rw [hbytes, length_values_bytes]
  cases hnobits : s.cur.nobits with
  | false =>
    have hiff := values_bytes_iff hn (fun r => length_le_bytes n r.v) values
    rw [meets_iff_of_emits (hbits hnobits), hnobits, ValuesExact, hnobits]
    simp only [hbytes, Bool.false_eq_true, if_false, hiff, false_implies, and_true]
  | true =>
    have hiff := @values_bytes_iff n (fun _ => List.replicate n 0) hn (fun _ => List.length_replicate) values
    rw [flatMap_zero] at hiff
    rw [meets_iff_of_skips hs hnobits hlength (hskips hnobits), ValuesExact, hnobits]
    simp only [hbytes, hiff, true_implies, forall_and]
    push_cast
    exact and_assoc

theorem asm_data_skips {n : Nat} {emit : ExprValue → AsmState → Result AsmState} {values : List PcrelValue}
    (hnobits : s.cur.nobits = true)
    (hstep : asm_data (BitVec.ofNat 32 n) emit (values.map PcrelValue.toExprValue) s = .ok s') :
    s' = { s with ind := s.ind + BitVec.ofNat 32 (n * values.length) } := by
  rw [asm_data, skips_foldlM (n := n) (fun s e hs => if_pos hs) hnobits, List.length_map] at hstep
  exact (Except.ok.inj hstep).symm

theorem meets_byte {values : List PcrelValue} (hs : Ready s)
    (hstep : (DataDirective.byte values).exec s = .ok s') :
    (DataDirective.byte values).Meets s s' ↔ ValuesExact 1 values s := by
  refine meets_values hs Nat.one_pos (fun _ _ => rfl) (fun hbits => ?_)
    fun hnobits => asm_data_skips hnobits hstep
  refine emits_asm_data hs hbits (emits_asm_constant fun v s s' hs hstep => ?_) hstep
  have hbytes : le_bytes 1 v = [(v.setWidth 32 : BitVec 32).setWidth 8] := by simp [le_bytes]
  rw [hbytes]
  exact emits_g hs.cur hs.ind hstep

theorem meets_short {values : List PcrelValue} (hs : Ready s)
    (hstep : (DataDirective.short values).exec s = .ok s') :
    (DataDirective.short values).Meets s s' ↔ ValuesExact 2 values s := by
  refine meets_values hs Nat.two_pos (fun _ _ => rfl) (fun hbits => ?_)
    fun hnobits => asm_data_skips hnobits hstep
  exact emits_asm_data hs hbits (emits_asm_constant fun _ _ _ => emits_gen_le16) hstep

theorem meets_int {values : List PcrelValue} (hs : Ready s)
    (hstep : (DataDirective.int values).exec s = .ok s') :
    (DataDirective.int values).Meets s s' ↔ ValuesExact 4 values s := by
  refine meets_values hs (by decide) (fun _ _ => rfl) (fun hbits => ?_)
    fun hnobits => asm_data_skips hnobits hstep
  exact emits_asm_data hs hbits (fun _ _ _ => emits_gen_le32) hstep

theorem quad_constants_ok {constants : List (List Byte)} {values : List (BitVec 64)}
    (h : constants.mapM quad_constant = .ok values) : values = constants.map fun p => (strtoll p).1 := by
  induction constants generalizing values with
  | nil =>
    cases h
    rfl
  | cons p constants ih =>
    rw [List.mapM_cons] at h
    obtain ⟨vl, hvl, h⟩ := bind_ok.mp h
    obtain ⟨vls, hvls, h⟩ := bind_ok.mp h
    cases h
    rw [List.map_cons, ih hvls]
    rw [quad_constant] at hvl
    dsimp only at hvl
    split at hvl
    · cases hvl
    · cases hvl
      rfl

theorem flatMap_eq_iff {α : Type} {f f' : α → List Byte} {l : List α}
    (h : ∀ a, (f a).length = (f' a).length) :
    l.flatMap f = l.flatMap f' ↔ ∀ a ∈ l, f a = f' a := by
  induction l with
  | nil => simp
  | cons a l ih =>
    rw [List.flatMap_cons, List.flatMap_cons, List.forall_mem_cons, ← ih]
    exact ⟨fun heq => List.append_inj heq (h a), fun heq => by rw [heq.1, heq.2]⟩

theorem le_bytes_zero (n : Nat) : le_bytes n 0 = List.replicate n 0 := by
  induction n with
  | zero => rfl
  | succ n ih =>
    have hshift : (0 : BitVec 64) >>> 8 = 0 := rfl
    rw [le_bytes, hshift, ih, List.replicate_succ]
    rfl

theorem le_bytes_inj (n : Nat) {v w : BitVec 64} :
    le_bytes n v = le_bytes n w ↔ v.toNat % 2 ^ (8 * n) = w.toNat % 2 ^ (8 * n) := by
  induction n generalizing v w with
  | zero => simp [le_bytes, Nat.mod_one]
  | succ n ih =>
    have hpow : 2 ^ (8 * (n + 1)) = 2 ^ 8 * 2 ^ (8 * n) := by rw [← pow_add]; congr 1; ring
    have hhead : (v.setWidth 8 : BitVec 8) = w.setWidth 8 ↔ v.toNat % 2 ^ 8 = w.toNat % 2 ^ 8 := by
      rw [← BitVec.toNat_inj, BitVec.toNat_setWidth, BitVec.toNat_setWidth]
    rw [le_bytes, le_bytes, List.cons.injEq, hhead, ih, BitVec.toNat_ushiftRight, BitVec.toNat_ushiftRight,
      Nat.shiftRight_eq_div_pow, Nat.shiftRight_eq_div_pow, hpow, Nat.mod_mul, Nat.mod_mul]
    constructor
    · rintro ⟨hlow, hrest⟩
      rw [hlow, hrest]
    · intro h
      omega

theorem le_bytes_eight_inj {v w : BitVec 64} : le_bytes 8 v = le_bytes 8 w ↔ v = w := by
  rw [le_bytes_inj, Nat.mod_eq_of_lt v.isLt, Nat.mod_eq_of_lt w.isLt, BitVec.toNat_inj]

theorem strtoll_exact_iff (p : List Byte) :
    BitVec.ofNat 64 (literal p) = (strtoll p).1 ↔ literal p < 2 ^ 63 ∨ literal p % 2 ^ 64 = 2 ^ 63 - 1 := by
  rw [strtoll, ← BitVec.toNat_inj, BitVec.toNat_ofNat, BitVec.toNat_ofNat]
  omega

theorem meets_quad {constants : List (List Byte)} (hs : Ready s)
    (hstep : (DataDirective.quad constants).exec s = .ok s') :
    (DataDirective.quad constants).Meets s s' ↔ ConstantsExact constants s := by
  obtain ⟨values, hvalues, hstep⟩ := bind_ok.mp hstep
  rw [quad_constants_ok hvalues] at hstep
  cases hnobits : s.cur.nobits with
  | false =>
    have hemits := emits_foldlM (fun vl _ s s' hs hb hstep => emits_gen_quad hs hb hstep) hs hnobits hstep
    rw [List.flatMap_map] at hemits
    rw [meets_iff_of_emits hemits, hnobits, ConstantsExact, hnobits]
    simp only [Bool.false_eq_true, if_false, DataDirective.bytes]
    rw [forall_const, forall_const, flatMap_eq_iff fun p => by rw [length_le_bytes, length_le_bytes]]
    simp only [le_bytes_eight_inj, strtoll_exact_iff]
  | true =>
    have hskip := skips_foldlM (n := 8) (l := constants.map fun p => (strtoll p).1)
      (fun s vl (hs : s.cur.nobits = true) => (if_pos hs : gen_quad vl s = _)) hnobits
    have hs' : s' = { s with ind := s.ind + BitVec.ofNat 32 (8 * constants.length) } := by
      have heq := hstep.symm.trans hskip
      rw [List.length_map] at heq
      exact Except.ok.inj heq
    have hlength : ∀ (addr : Nat → BitVec 64) (here : BitVec 64),
        ((DataDirective.quad constants).bytes addr here).length = 8 * constants.length := by
      intro addr here
      simp [DataDirective.bytes, List.length_flatMap, length_le_bytes]
      ring
    have hzero (p : List Byte) : BitVec.ofNat 64 (literal p) = 0 ↔ literal p % 2 ^ 64 = 0 := by
      rw [← BitVec.toNat_inj, BitVec.toNat_ofNat]
      rfl
    rw [meets_iff_of_skips hs hnobits hlength hs', ConstantsExact, hnobits, if_pos rfl, ← flatMap_zero,
      ← le_bytes_zero]
    simp only [DataDirective.bytes, forall_const]
    rw [flatMap_eq_iff fun p => by rw [length_le_bytes, length_le_bytes]]
    simp only [le_bytes_eight_inj, hzero]
    push_cast
    rfl

/-- The results that `asm_int_expr` takes have no symbol. -/
theorem asm_int_expr_ok {e : ExprValue} {n : BitVec 32} (h : asm_int_expr e = .ok n) :
    e.sym = none ∧ n = e.v.setWidth 32 := by
  rw [asm_int_expr] at h
  split at h
  · cases h
  · rename_i hsym
    cases h
    exact ⟨Option.not_isSome_iff_eq_none.mp hsym, rfl⟩

theorem take_le_bytes {m n : Nat} (h : m ≤ n) (v : BitVec 64) : (le_bytes n v).take m = le_bytes m v := by
  induction m generalizing n v with
  | zero => rfl
  | succ m ih =>
    obtain ⟨n, rfl⟩ := Nat.exists_eq_succ_of_ne_zero (by omega : n ≠ 0)
    rw [le_bytes, List.take_succ_cons, ih (by omega), le_bytes]

/-- `repeat_buf` -/
theorem le_bytes_repeat_buf (val : BitVec 32) :
    le_bytes 8 (val.setWidth 64) = [val.setWidth 8, (val >>> 8).setWidth 8, (val >>> 16).setWidth 8,
      (val >>> 24).setWidth 8, 0, 0, 0, 0] := by
  have hlow (i : Nat) (hi : i ≤ 24) :
      (((val.setWidth 64 : BitVec 64) >>> i).setWidth 8 : BitVec 8) = (val >>> i).setWidth 8 := by
    have h := setWidth_shift (val.setWidth 64) hi
    rw [← h]
    simp
  have hhigh (i : Nat) (hi : 32 ≤ i) : (((val.setWidth 64 : BitVec 64) >>> i).setWidth 8 : BitVec 8) = 0 := by
    apply BitVec.eq_of_getLsbD_eq
    intro j hj
    rw [BitVec.getLsbD_setWidth, BitVec.getLsbD_ushiftRight, BitVec.getLsbD_setWidth,
      BitVec.getLsbD_of_ge val _ (by omega)]
    simp
  have h8 := hlow 8 (by decide)
  have h16 := hlow 16 (by decide)
  have h24 := hlow 24 (by decide)
  have h32 := hhigh 32 (by decide)
  have h40 := hhigh 40 (by decide)
  have h48 := hhigh 48 (by decide)
  have h56 := hhigh 56 (by decide)
  simp [le_bytes, h8, h16, h24, h32, h40, h48, h56]

theorem fill_size_ok {size : Option PcrelValue} {n : BitVec 32}
    (h : fill_size (size.map PcrelValue.toExprValue) = .ok n) :
    (size.getD (constant 1)).sym = none ∧ n = (size.getD (constant 1)).v.setWidth 32 := by
  cases size with
  | none =>
    cases h
    exact ⟨rfl, rfl⟩
  | some r => exact asm_int_expr_ok h

theorem fill_value_ok {val : Option PcrelValue} {n : BitVec 32}
    (h : fill_value (val.map PcrelValue.toExprValue) = .ok n) :
    (val.getD (constant 0)).sym = none ∧ n = (val.getD (constant 0)).v.setWidth 32 := by
  cases val with
  | none =>
    cases h
    exact ⟨rfl, rfl⟩
  | some r => exact asm_int_expr_ok h

theorem toNat_of_not_slt {v : BitVec 64} (h : ¬ (v.setWidth 32 : BitVec 32).slt 0 = true) :
    v.toNat % 2 ^ 32 < 2 ^ 31 := by
  rw [BitVec.slt_iff_toInt_lt, not_lt] at h
  have hlt := (toInt_of_nonneg h).2
  rwa [BitVec.toNat_setWidth] at hlt

theorem size_toNat {n : BitVec 32} (h : n.toNat < 2 ^ 31) :
    (if BitVec.slt 8 n then 8 else n).toNat = min 8 n.toNat := by
  have hint : n.toInt = n.toNat := BitVec.toInt_eq_toNat_of_lt (by omega)
  have hint8 : (8 : BitVec 32).toInt = 8 := by decide
  have hnat8 : (8 : BitVec 32).toNat = 8 := rfl
  split
  · rename_i hlt
    rw [BitVec.slt_iff_toInt_lt] at hlt
    omega
  · rename_i hge
    rw [BitVec.slt_iff_toInt_lt] at hge
    omega

/-- The bytes of a value repeated. -/
def repeated (n w : Nat) (v : BitVec 64) : List Byte := (List.replicate n (le_bytes w v)).flatten

theorem length_repeated (n w : Nat) (v : BitVec 64) : (repeated n w v).length = n * w := by
  simp [repeated, length_le_bytes]

theorem emits_fill {repeats : PcrelValue} {size val : Option PcrelValue} (hs : Ready s)
    (hstep : (DataDirective.fill repeats size val).exec s = .ok s') :
    repeats.sym = none ∧ (size.getD (constant 1)).sym = none ∧ (val.getD (constant 0)).sym = none ∧
      repeats.v.toNat % 2 ^ 32 < 2 ^ 31 ∧
      Emits (repeated (repeats.v.toNat % 2 ^ 32) (min 8 ((size.getD (constant 1)).v.toNat % 2 ^ 32))
        (((val.getD (constant 0)).v.setWidth 32 : BitVec 32).setWidth 64)) s s' := by
  obtain ⟨n, hn, hstep⟩ := bind_ok.mp hstep
  obtain ⟨hsym, rfl⟩ := asm_int_expr_ok hn
  split at hstep
  · cases hstep
  · rename_i hrepeats
    obtain ⟨n, hn, hstep⟩ := bind_ok.mp hstep
    obtain ⟨hsymsize, rfl⟩ := fill_size_ok hn
    split at hstep
    · cases hstep
    · rename_i hsize
      obtain ⟨n, hn, hstep⟩ := bind_ok.mp hstep
      obtain ⟨hsymval, rfl⟩ := fill_value_ok hn
      refine ⟨hsym, hsymsize, hsymval, toNat_of_not_slt hrepeats, ?_⟩
      have hemits := emits_g_all hs hstep
      have hlt := toNat_of_not_slt hsize
      rw [← le_bytes_repeat_buf, size_toNat (by rw [BitVec.toNat_setWidth]; exact hlt),
        take_le_bytes (Nat.min_le_left _ _), BitVec.toNat_setWidth, BitVec.toNat_setWidth] at hemits
      exact hemits

theorem repeated_inj {n w : Nat} {v v' : BitVec 64} (hn : 0 < n) :
    repeated n w v = repeated n w v' ↔ le_bytes w v = le_bytes w v' := by
  constructor
  · intro h
    obtain ⟨n, rfl⟩ := Nat.exists_eq_succ_of_ne_zero (Nat.ne_of_gt hn)
    rw [repeated, repeated, List.replicate_succ, List.replicate_succ, List.flatten_cons,
      List.flatten_cons] at h
    exact (List.append_inj h (by rw [length_le_bytes, length_le_bytes])).1
  · intro h
    rw [repeated, repeated, h]

theorem repeated_nil {n w : Nat} {v : BitVec 64} (h : n * w = 0) : repeated n w v = [] :=
  List.length_eq_zero_iff.mp ((length_repeated n w v).trans h)

theorem final_pcrel {r : PcrelValue} (hsym : r.sym = none) (habs : ¬ Absolute r) (addr : Nat → BitVec 64)
    (here : BitVec 64) : r.final addr here = r.v - (here + 4) := by
  have hpcrel : r.pcrel = true := by
    cases hp : r.pcrel with
    | false => exact absurd ⟨hsym, hp⟩ habs
    | true => rfl
  rw [PcrelValue.final, hsym, hpcrel]
  simp

/-- What is relative to the place has any value. -/
theorem exists_final {r : PcrelValue} (hsym : r.sym = none) (habs : ¬ Absolute r) (x : BitVec 64) :
    ∃ here, ∀ addr, r.final addr here = x := by
  refine ⟨r.v - x - 4, fun addr => ?_⟩
  rw [final_pcrel hsym habs]
  bv_omega

theorem exists_ne_ne (a b : BitVec 64) : ∃ x, a - (x + 4) ≠ 0 ∧ b - (x + 4) ≠ 0 := by
  by_cases hb : b = a + 1
  · refine ⟨a - 2, ?_, ?_⟩
    · bv_omega
    · rw [hb]
      bv_omega
  · refine ⟨a - 3, ?_, ?_⟩
    · bv_omega
    · intro h
      exact hb (by bv_omega)

/-- The number of copies and the width are those that the code computes. -/
theorem counts_eq {n w n' w' : Nat} (hn : 0 < n) (hw : 0 < w) (hn' : n' ≤ n) (hw' : w' ≤ w)
    (h : n * w = n' * w') : n' = n ∧ w' = w := by
  have hle : n * w ≤ n' * w := h.le.trans (Nat.mul_le_mul_left n' hw')
  have hcount : n' = n := Nat.le_antisymm hn' (Nat.le_of_mul_le_mul_right hle hw)
  subst hcount
  exact ⟨rfl, (Nat.eq_of_mul_eq_mul_left hn h).symm⟩

/-- What `.fill` is for is what it emits, wherever the section is placed, only if it emits nothing or its
    operands are numbers that fit. -/
theorem repeated_final_iff {r sz vl : PcrelValue} {u : BitVec 64} (hr : r.sym = none) (hsz : sz.sym = none)
    (hlt : r.v.toNat % 2 ^ 32 < 2 ^ 31) :
    (∀ addr here, repeated (r.final addr here).toNat (min 8 (sz.final addr here).toNat) (vl.final addr here) =
        repeated (r.v.toNat % 2 ^ 32) (min 8 (sz.v.toNat % 2 ^ 32)) u) ↔
      (Absolute r ∧ r.v = 0) ∨ (Absolute sz ∧ sz.v = 0) ∨
        (Absolute r ∧ Absolute sz ∧ Absolute vl ∧ r.v.toNat < 2 ^ 31 ∧
          min 8 (sz.v.toNat % 2 ^ 32) = min 8 sz.v.toNat ∧
          le_bytes (min 8 sz.v.toNat) vl.v = le_bytes (min 8 sz.v.toNat) u) := by
  constructor
  · intro h
    have hlength (addr here) : (r.final addr here).toNat * min 8 (sz.final addr here).toNat =
        r.v.toNat % 2 ^ 32 * min 8 (sz.v.toNat % 2 ^ 32) := by
      have heq := congrArg List.length (h addr here)
      rwa [length_repeated, length_repeated] at heq
    by_cases habsr : Absolute r
    · by_cases hzero : r.v = 0
      · exact Or.inl ⟨habsr, hzero⟩
      · have hpos : 0 < r.v.toNat := Nat.pos_of_ne_zero fun hnat => hzero (BitVec.eq_of_toNat_eq hnat)
        by_cases habssz : Absolute sz
        · by_cases hzerosz : sz.v = 0
          · exact Or.inr (Or.inl ⟨habssz, hzerosz⟩)
          · have hpossz : 0 < sz.v.toNat :=
              Nat.pos_of_ne_zero fun hnat => hzerosz (BitVec.eq_of_toNat_eq hnat)
            have hcounts := hlength (fun _ => 0) 0
            rw [final_absolute habsr, final_absolute habssz] at hcounts
            obtain ⟨hn, hw⟩ := counts_eq hpos (by omega) (Nat.mod_le _ _)
              (min_le_min_left 8 (Nat.mod_le _ _)) hcounts
            refine Or.inr (Or.inr ⟨habsr, habssz, ?_⟩)
            have hvalue : ∀ addr here, le_bytes (min 8 sz.v.toNat) (vl.final addr here) =
                le_bytes (min 8 sz.v.toNat) u := by
              intro addr here
              have heq := h addr here
              rw [final_absolute habsr, final_absolute habssz, hn, hw] at heq
              exact (repeated_inj hpos).mp heq
            obtain ⟨habsvl, hbytes⟩ := (le_bytes_const_iff (by omega)).mp hvalue
            exact ⟨habsvl, hn ▸ hlt, hw, hbytes⟩
        · obtain ⟨here, hhere⟩ := exists_final hsz habssz 0
          obtain ⟨here', hhere'⟩ := exists_final hsz habssz 1
          have h0 := hlength (fun _ => 0) here
          have h1 := hlength (fun _ => 0) here'
          rw [hhere, final_absolute habsr] at h0
          rw [hhere', final_absolute habsr, ← h0] at h1
          simp at h1
          omega
    · obtain ⟨here, hhere⟩ := exists_final hr habsr 0
      have h0 := hlength (fun _ => 0) here
      rw [hhere] at h0
      have hnone (here) :
          (r.final (fun _ => 0) here).toNat * min 8 (sz.final (fun _ => 0) here).toNat = 0 := by
        rw [hlength, ← h0]
        exact Nat.zero_mul _
      by_cases habssz : Absolute sz
      · refine Or.inr (Or.inl ⟨habssz, ?_⟩)
        obtain ⟨here', hhere'⟩ := exists_final hr habsr 1
        have h1 := hnone here'
        rw [hhere', final_absolute habssz] at h1
        have hnat : sz.v.toNat = 0 := by
          simp at h1
          omega
        exact BitVec.eq_of_toNat_eq hnat
      · obtain ⟨x, hx, hx'⟩ := exists_ne_ne r.v sz.v
        have h1 := hnone x
        rw [final_pcrel hr habsr, final_pcrel hsz habssz] at h1
        have hn : 0 < (r.v - (x + 4)).toNat := Nat.pos_of_ne_zero fun hnat => hx (BitVec.eq_of_toNat_eq hnat)
        have hw : 0 < min 8 (sz.v - (x + 4)).toNat := by
          have := Nat.pos_of_ne_zero fun hnat => hx' (BitVec.eq_of_toNat_eq hnat)
          omega
        exact absurd h1 (Nat.ne_of_gt (Nat.mul_pos hn hw))
  · rintro (⟨habs, hzero⟩ | ⟨habs, hzero⟩ | ⟨habsr, habssz, habsvl, hn, hw, hbytes⟩) addr here
    · rw [final_absolute habs, hzero]
      rfl
    · rw [final_absolute habs, hzero]
      exact (repeated_nil (Nat.mul_zero _)).trans (repeated_nil (Nat.mul_zero _)).symm
    · rw [final_absolute habsr, final_absolute habssz, final_absolute habsvl, hw,
        Nat.mod_eq_of_lt (hn.trans (by decide)), repeated, repeated, hbytes]

theorem le_bytes_low_iff (w : Nat) (v : BitVec 64) :
    le_bytes w v = le_bytes w ((v.setWidth 32 : BitVec 32).setWidth 64) ↔
      v.toNat % 2 ^ (8 * w) < 2 ^ 32 := by
  have hlow : ((v.setWidth 32 : BitVec 32).setWidth 64 : BitVec 64).toNat = v.toNat % 2 ^ 32 := by
    rw [BitVec.toNat_setWidth, BitVec.toNat_setWidth]
    omega
  rw [le_bytes_inj, hlow]
  by_cases hw : 8 * w ≤ 32
  · have hle : 2 ^ (8 * w) ≤ 2 ^ 32 := Nat.pow_le_pow_right (by decide) hw
    rw [Nat.mod_mod_of_dvd _ (pow_dvd_pow 2 hw)]
    exact ⟨fun _ => (Nat.mod_lt _ (by positivity)).trans_le hle, fun _ => rfl⟩
  · have hle : 2 ^ 32 ≤ 2 ^ (8 * w) := Nat.pow_le_pow_right (by decide) (by omega)
    have hlt : v.toNat % 2 ^ 32 < 2 ^ 32 := Nat.mod_lt _ (by decide)
    rw [Nat.mod_eq_of_lt (hlt.trans_le hle)]
    constructor
    · intro h
      rw [h]
      exact hlt
    · intro h
      rw [← Nat.mod_mod_of_dvd v.toNat (pow_dvd_pow 2 (by omega : 32 ≤ 8 * w)), Nat.mod_eq_of_lt h]

theorem meets_fill {repeats : PcrelValue} {size val : Option PcrelValue} (hs : Ready s)
    (hstep : (DataDirective.fill repeats size val).exec s = .ok s') :
    (DataDirective.fill repeats size val).Meets s s' ↔
      FillExact repeats (size.getD (constant 1)) (val.getD (constant 0)) s := by
  obtain ⟨hsym, hsymsize, -, hlt, hemits⟩ := emits_fill hs hstep
  rw [meets_iff_of_emits hemits, FillExact]
  cases hnobits : s.cur.nobits with
  | false =>
    rw [if_neg Bool.false_ne_true, if_neg Bool.false_ne_true, ← le_bytes_low_iff]
    exact repeated_final_iff hsym hsymsize hlt
  | true =>
    have hzero (n w : Nat) : List.replicate (n * w) (0 : Byte) = repeated n w 0 := by
      rw [repeated, le_bytes_zero, List.flatten_replicate_replicate]
    rw [if_pos rfl, if_pos rfl, length_repeated, hzero, ← le_bytes_zero]
    exact repeated_final_iff hsym hsymsize hlt

end meets

/-- The bytes that a data directive leaves are those that it is for, wherever the sections and the symbols
    are placed, if and only if its operands are numbers that the directive encodes exactly. -/
theorem meets_iff_exact {d : DataDirective} {s s' : AsmState} (h : s.WF) (hstep : d.exec s = .ok s') :
    d.Meets s s' ↔ d.Exact s := by
  have hs : Ready s := ⟨h.cur, h.ind⟩
  cases d with
  | byte values => exact meets_byte hs hstep
  | short values => exact meets_short hs hstep
  | int values => exact meets_int hs hstep
  | quad constants => exact meets_quad hs hstep
  | fill repeats size val => exact meets_fill hs hstep

/-- `.byte 1, 255` -/
theorem meets_two_bytes : ∃ s', (DataDirective.byte [constant 1, constant 255]).exec empty_unit = .ok s' ∧
    (DataDirective.byte [constant 1, constant 255]).Meets empty_unit s' := by
  refine ⟨_, rfl, (meets_iff_exact wf_empty_unit rfl).mpr ⟨fun r hr => ?_, fun h => (by cases h)⟩⟩
  simp only [List.mem_cons, List.not_mem_nil, or_false] at hr
  rcases hr with rfl | rfl
  · exact ⟨rfl, rfl⟩
  · exact ⟨rfl, rfl⟩

/-- `9223372036854775808`, which is 2^63 -/
def two_pow_63 : List Byte :=
  [57, 50, 50, 51, 51, 55, 50, 48, 51, 54, 56, 53, 52, 55, 55, 53, 56, 48, 56]

/-- `.long f` leaves zeros for the address of a symbol, and `.quad` another number than 2^63. -/
theorem inexact_data :
    (∃ s', (DataDirective.int [⟨⟨0, some 0⟩, false⟩]).exec empty_unit = .ok s' ∧
      ¬ (DataDirective.int [⟨⟨0, some 0⟩, false⟩]).Meets empty_unit s') ∧
    ∃ s', (DataDirective.quad [two_pow_63]).exec empty_unit = .ok s' ∧
      ¬ (DataDirective.quad [two_pow_63]).Meets empty_unit s' := by
  refine ⟨⟨_, rfl, fun h => ?_⟩, _, rfl, fun h => ?_⟩
  · exact absurd (h.emitted (fun _ => 1) 0) (by decide)
  · exact absurd (h.emitted (fun _ => 0) 0) (by decide)

end tcc.asm.data
