import Mathlib.Tactic.Positivity
import Tcc.Machine.Placement
import Tcc.Output.Layout

/-! The places of the sections, as numbers. -/

namespace tcc.output

open machine machine.placement tcc.obj

theorem toNat_signExtend_of_lt {x : BitVec 32} (hx : x.toNat < 2 ^ 31) : (x.signExtend 64).toNat = x.toNat := by
  have hmsb : x.msb = false := BitVec.msb_eq_false_iff_two_mul_lt.mpr (by omega)
  rw [BitVec.signExtend_eq_setWidth_of_msb_false hmsb, BitVec.toNat_setWidth]
  omega

/-- The alignment of a section is a power of two, as that of every section is that is made here. -/
def Section.Aligned (s : Section) : Prop := ∃ k < 31, s.sh_addralign.toNat = 2 ^ k

def Section.size (s : Section) : Nat := s.sh_size.toNat

def Section.align (s : Section) : Nat := s.sh_addralign.toNat

/-- The bytes of a section that are in the file. -/
def Section.filled (s : Section) : Nat := if s.nobits then 0 else s.size

def Entry.block (e : Entry) : Block where
  align := max e.sec.align 1
  size := e.sec.size
  filled := e.sec.filled
  opens := e.header
  filled_le := by
    unfold Section.filled
    split <;> omega
  align_pos := by omega

theorem Section.Aligned.align_pos {s : Section} (haligned : s.Aligned) : 0 < s.align := by
  obtain ⟨k, -, hk⟩ := haligned
  rw [Section.align, hk]
  positivity

theorem block_align {e : Entry} (haligned : e.sec.Aligned) : e.block.align = e.sec.align := by
  have := haligned.align_pos
  simp only [Entry.block]
  omega

theorem Section.Aligned.toNat_mask {s : Section} (haligned : s.Aligned) : s.mask.toNat = s.align - 1 := by
  obtain ⟨k, hk, hpow⟩ := haligned
  have hlt : 2 ^ k < 2 ^ 31 := Nat.pow_lt_pow_right (by omega) hk
  have hpos : 0 < 2 ^ k := by positivity
  have hsub : (s.sh_addralign - 1#32).toNat = s.sh_addralign.toNat - 1 := by
    rw [BitVec.toNat_sub_of_le]
    · rfl
    · rw [BitVec.le_def, hpow]
      exact hpos
  rw [Section.mask, toNat_signExtend_of_lt (by omega), hsub, Section.align]

theorem toNat_align_to {x mask : BitVec 64} {k : Nat} (hk : k < 64) (hmask : mask.toNat = 2 ^ k - 1)
    (hx : x.toNat + 2 ^ k - 1 < 2 ^ 64) : (align_to x mask).toNat = align_up (2 ^ k) x.toNat := by
  have hpos : 0 < 2 ^ k := by positivity
  have hlt : 2 ^ k < 2 ^ 64 := Nat.pow_lt_pow_right (by omega) hk
  have hneg : ~~~mask = -BitVec.twoPow 64 k := by
    have hmask_eq : mask = BitVec.twoPow 64 k - 1#64 := by
      apply BitVec.eq_of_toNat_eq
      rw [BitVec.toNat_sub_of_le]
      · rw [BitVec.toNat_twoPow, Nat.mod_eq_of_lt hlt, hmask]
        rfl
      · rw [BitVec.le_def, BitVec.toNat_twoPow, Nat.mod_eq_of_lt hlt]
        exact hpos
    rw [hmask_eq, BitVec.not_eq_neg_add, BitVec.neg_sub, BitVec.add_sub_cancel]
  have hsum : (x + mask).toNat = x.toNat + 2 ^ k - 1 := by
    rw [BitVec.toNat_add, hmask, Nat.mod_eq_of_lt (by omega)]
    omega
  rw [align_to, hneg, toNat_and_neg_twoPow, hsum, align_up]

theorem Section.Aligned.toNat_align_to {s : Section} (haligned : s.Aligned) {x : BitVec 64}
    (hx : x.toNat + s.align ≤ 2 ^ 64) : (align_to x s.mask).toNat = align_up s.align x.toNat := by
  have hmask := haligned.toNat_mask
  have hpos := haligned.align_pos
  obtain ⟨k, hk, hpow⟩ := haligned
  rw [Section.align, hpow] at hmask hx hpos ⊢
  exact output.toNat_align_to (by omega) hmask (by omega)

/-- The state of the loop is where a cursor is. -/
structure At (st : Lay) (k : Cursor) : Prop where
  addr : st.addr.toNat = k.addr
  offset : st.file_offset.toNat = k.offset
  opened : st.n = k.opened
  offset_lt : k.offset < 2 ^ 31

/-- A section is where the cursor goes for it. -/
structure PlacedAt (page : Nat) (k : Cursor) (e x : Entry) : Prop where
  eq : x = { e with sec.sh_offset := x.sec.sh_offset, sec.sh_addr := x.sec.sh_addr }
  addr : x.sec.sh_addr.toNat = (k.start page e.block).addr
  offset : x.sec.sh_offset.toNat = (k.start page e.block).offset

theorem layout_allocated_n (c : Config) (st : Lay) (e : Entry) :
    (layout_allocated c st e).n = if e.header then st.n + 1 else st.n := by
  by_cases hheader : e.header
  · cases hph : st.ph <;> simp [Lay.n, layout_allocated, hheader, hph]
  · cases hph : st.ph <;> simp [Lay.n, layout_allocated, hheader, hph]

section

variable {c : Config} (helf : c.output_format = .ELF) {k_page : Nat} (hpage : c.s_align.toNat = 2 ^ k_page)
include helf hpage

theorem toNat_page_hop {st : Lay} {k : Cursor} (hat : At st k) (e : Entry)
    (hroom : k.addr + c.s_align.toNat < 2 ^ 64) :
    (page_hop c st e).toNat = k.hop c.s_align.toNat e.block := by
  have hzero : st.addr &&& (c.s_align - 1#64) = 0#64 ↔ k.addr % c.s_align.toNat = 0 := by
    have hpos : 0 < 2 ^ k_page := by positivity
    have hsub : (c.s_align - 1#64).toNat = 2 ^ k_page - 1 := by
      rw [BitVec.toNat_sub_of_le]
      · rw [hpage]
        rfl
      · rw [BitVec.le_def, hpage]
        exact hpos
    rw [← BitVec.toNat_inj, BitVec.toNat_and, hsub, Nat.and_two_pow_sub_one_eq_mod, hat.addr, hpage]
    rfl
  have hiff : (e.header ∧ st.n ≠ 0 ∧ c.output_format = .ELF ∧ st.addr &&& (c.s_align - 1#64) ≠ 0#64) ↔
      (e.block.opens ∧ k.opened ≠ 0 ∧ k.addr % c.s_align.toNat ≠ 0) := by
    rw [hat.opened, ne_eq, ne_eq (_ &&& _), hzero]
    simp only [helf, true_and, Entry.block]
  unfold page_hop Cursor.hop
  by_cases hcond : e.header ∧ st.n ≠ 0 ∧ c.output_format = .ELF ∧ st.addr &&& (c.s_align - 1#64) ≠ 0#64
  · rw [if_pos hcond, if_pos (hiff.mp hcond), BitVec.toNat_add, hat.addr, Nat.mod_eq_of_lt hroom]
  · rw [if_neg hcond, if_neg fun h => hcond (hiff.mpr h), hat.addr]

/-- A section that is allocated goes where the cursor says. -/
theorem layout_allocated_spec {st : Lay} {k : Cursor} (hat : At st k) {e : Entry} (haligned : e.sec.Aligned)
    (hroom : k.addr + (e.sec.size + e.sec.align + c.s_align.toNat) < 2 ^ 64)
    (hfile : k.offset + (e.sec.filled + e.sec.align) < 2 ^ 31) :
    At (layout_allocated c st e) (k.pass c.s_align.toNat e.block) ∧
      ∃ x, (layout_allocated c st e).placed = st.placed ++ [x] ∧ PlacedAt c.s_align.toNat k e x := by
  have hhop := toNat_page_hop helf hpage hat e (by omega)
  have hhop_le := k.hop_le c.s_align.toNat e.block
  have hpos := haligned.align_pos
  have hmask : section_mask c st e = e.sec.mask := by
    rw [section_mask, if_neg]
    rintro ⟨-, -, h⟩
    exact h helf
  have haddr : (align_to (page_hop c st e) (section_mask c st e)).toNat = (k.start c.s_align.toNat e.block).addr := by
    rw [hmask, haligned.toNat_align_to (by omega), hhop, Cursor.start, block_align haligned]
  have hlt := align_up_lt e.block (k.hop c.s_align.toNat e.block)
  have hle := le_align_up e.block (k.hop c.s_align.toNat e.block)
  have hstart : (k.start c.s_align.toNat e.block).addr = align_up e.block.align (k.hop c.s_align.toNat e.block) := rfl
  rw [block_align haligned] at hlt hle hstart
  have hdiff : ((align_to (page_hop c st e) (section_mask c st e) - page_hop c st e).setWidth 32).toNat =
      (k.start c.s_align.toNat e.block).addr - k.hop c.s_align.toNat e.block := by
    rw [BitVec.toNat_setWidth, BitVec.toNat_sub_of_le (by rw [BitVec.le_def, haddr, hhop, hstart]; exact hle),
      haddr, hhop]
    omega
  have hoffset : (st.file_offset +
      (align_to (page_hop c st e) (section_mask c st e) - page_hop c st e).setWidth 32).toNat =
      (k.start c.s_align.toNat e.block).offset := by
    have hstart_offset : (k.start c.s_align.toNat e.block).offset =
      k.offset + ((k.start c.s_align.toNat e.block).addr - k.hop c.s_align.toNat e.block) := rfl
    rw [BitVec.toNat_add, hdiff, hat.offset, hstart_offset]
    omega
  have hstart_lt : (k.start c.s_align.toNat e.block).offset + e.sec.filled < 2 ^ 31 := by
    have hstart_offset : (k.start c.s_align.toNat e.block).offset =
      k.offset + ((k.start c.s_align.toNat e.block).addr - k.hop c.s_align.toNat e.block) := rfl
    omega
  refine ⟨⟨?_, ?_, ?_, ?_⟩, _, rfl, rfl, haddr, ?_⟩
  · have hsize : e.block.size = e.sec.sh_size.toNat := rfl
    have hsize' : e.sec.size = e.sec.sh_size.toNat := rfl
    simp only [layout_allocated, Cursor.pass]
    rw [BitVec.toNat_add, haddr]
    omega
  · have hfilled : e.block.filled = e.sec.filled := rfl
    simp only [layout_allocated, Cursor.pass]
    by_cases hnobits : e.sec.nobits
    · rw [if_pos hnobits, hoffset, hfilled, Section.filled, if_pos hnobits, Nat.add_zero]
    · have hsize : e.sec.filled = e.sec.sh_size.toNat := by
        rw [Section.filled, if_neg hnobits]
        rfl
      rw [if_neg hnobits, BitVec.toNat_setWidth, BitVec.toNat_add,
        toNat_signExtend_of_lt (hoffset ▸ by omega), hoffset, hfilled]
      omega
  · rw [layout_allocated_n, hat.opened]
    rfl
  · have hfilled : e.block.filled = e.sec.filled := rfl
    simp only [Cursor.pass]
    omega
  · show (BitVec.signExtend 64 _).toNat = _
    rw [toNat_signExtend_of_lt (hoffset ▸ by omega), hoffset]

end

end tcc.output
