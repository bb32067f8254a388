import Tcc.Link.Riscv32.HiLo

open machine.rv64 (Word)
open tcc.link (RelocType patchLoS)
open tcc.link.riscv32

/-! Code with relocations, and its words in the linked program. -/

namespace tcc.riscv32

/-- The relocation of an instruction: a high part, with the address that it is for, or the
    low part of the high part before it. -/
inductive Fixup where
  | none
  | R_RISCV_PCREL_HI20 (val : BitVec 32)
  | R_RISCV_PCREL_LO12_I
  | R_RISCV_PCREL_LO12_S
  deriving DecidableEq, Repr

structure Insn where
  word : Word
  fixup : Fixup
  deriving DecidableEq, Repr

/-- Code without relocations. -/
def plain (ws : List Word) : List Insn := ws.map fun w => ⟨w, .none⟩

/-- The linked word of the instruction at `addr`, and the last high part after it. -/
def Insn.patch (i : Insn) (addr : BitVec 32) (hi : PcrelHi) : Word × PcrelHi :=
  match i.fixup with
  | .none => (i.word, hi)
  | .R_RISCV_PCREL_HI20 val => (patchCallHi i.word (val - addr), ⟨addr, val⟩)
  | .R_RISCV_PCREL_LO12_I => (patchLoI i.word (hi.val - hi.addr), hi)
  | .R_RISCV_PCREL_LO12_S => (patchLoS i.word (hi.val - hi.addr), hi)

/-- The linked words of code at `addr`. -/
def linked (addr : BitVec 32) (hi : PcrelHi) : List Insn → List Word
  | [] => []
  | i :: is => (i.patch addr hi).1 :: linked (addr + 4#32) (i.patch addr hi).2 is

/-- The last high part after the code. -/
def last_hi (addr : BitVec 32) (hi : PcrelHi) : List Insn → PcrelHi
  | [] => hi
  | i :: is => last_hi (addr + 4#32) (i.patch addr hi).2 is

theorem linked_append (addr : BitVec 32) (hi : PcrelHi) (is js : List Insn) :
    linked addr hi (is ++ js) =
      linked addr hi is ++ linked (addr + BitVec.ofNat 32 (4 * is.length)) (last_hi addr hi is) js := by
  induction is generalizing addr hi with
  | nil => simp [linked, last_hi]
  | cons i is ih =>
    have hlen : addr + 4#32 + BitVec.ofNat 32 (4 * is.length) =
        addr + BitVec.ofNat 32 (4 * (i :: is).length) := by
      rw [BitVec.add_assoc, List.length_cons, show 4 * (is.length + 1) = 4 + 4 * is.length by omega,
        BitVec.ofNat_add]
    rw [List.cons_append, linked, ih, hlen, linked, last_hi, List.cons_append]

@[simp] theorem linked_plain (addr : BitVec 32) (hi : PcrelHi) (ws : List Word) :
    linked addr hi (plain ws) = ws := by
  induction ws generalizing addr with
  | nil => rfl
  | cons w ws ih => exact congrArg (w :: ·) (ih (addr + 4#32))

/-- The entry of the relocation section, if there is one. A low part names the place of its
    high part. -/
def Insn.reloc (i : Insn) (ptr : Nat) (addr : BitVec 32) (hi : PcrelHi) : List Reloc :=
  match i.fixup with
  | .none => []
  | .R_RISCV_PCREL_HI20 val => [⟨⟨addr, 0⟩, .R_RISCV_PCREL_HI20, ptr, addr, val⟩]
  | .R_RISCV_PCREL_LO12_I => [⟨⟨addr, 0⟩, .R_RISCV_PCREL_LO12_I, ptr, addr, hi.addr⟩]
  | .R_RISCV_PCREL_LO12_S => [⟨⟨addr, 0⟩, .R_RISCV_PCREL_LO12_S, ptr, addr, hi.addr⟩]

def relocs (ptr : Nat) (addr : BitVec 32) (hi : PcrelHi) : List Insn → List Reloc
  | [] => []
  | i :: is => i.reloc ptr addr hi ++ relocs (ptr + 4) (addr + 4#32) (i.patch addr hi).2 is

/-- The words `ws` stand in a section from `ptr` on. -/
def Stands (data : Bytes) (ptr : Nat) : List Word → Prop
  | [] => True
  | w :: ws => read32le data ptr = w ∧ Stands data (ptr + 4) ws

theorem Stands.of_sameOutside {data data' : Bytes} {k n : Nat} (hsame : SameOutside k n data data')
    {ptr : Nat} (hptr : k + n ≤ ptr) {ws : List Word} (h : Stands data ptr ws) : Stands data' ptr ws := by
  induction ws generalizing ptr with
  | nil => trivial
  | cons w ws ih => exact ⟨(hsame.read32le_eq (Or.inr hptr)).trans h.1, ih (by omega) h.2⟩

theorem relocate_all_append (s : LinkState) (rs rs' : List Reloc) :
    relocate_all s (rs ++ rs') = (relocate_all s rs).bind fun s' => relocate_all s' rs' := by
  induction rs generalizing s with
  | nil => rfl
  | cons r rs ih =>
    rw [List.cons_append, relocate_all, relocate_all]
    cases r.apply s with
    | error e => rfl
    | ok s' => exact ih s'

/-- The relocation of one instruction leaves the linked word and the last high part. -/
theorem Insn.relocate_spec (i : Insn) {s : LinkState} {ptr : Nat} (hword : read32le s.data ptr = i.word)
    (addr : BitVec 32) :
    ∃ s', relocate_all s (i.reloc ptr addr s.last_hi) = .ok s' ∧
      read32le s'.data ptr = (i.patch addr s.last_hi).1 ∧ s'.last_hi = (i.patch addr s.last_hi).2 ∧
      SameOutside ptr 4 s.data s'.data := by
  unfold Insn.reloc Insn.patch
  cases i.fixup with
  | none => exact ⟨s, rfl, hword, rfl, SameOutside.refl _ _ _⟩
  | R_RISCV_PCREL_HI20 val =>
    obtain ⟨s', hok, hdata, hlast⟩ :=
      Reloc.apply_hi (r := ⟨⟨addr, 0⟩, .R_RISCV_PCREL_HI20, ptr, addr, val⟩) (Or.inl rfl) s
    refine ⟨s', ?_, ?_, hlast, ?_⟩
    · change (Reloc.apply _ s).bind _ = _
      rw [hok]
      rfl
    · rw [hdata, read32le_write32le, hword]
      rfl
    · rw [hdata]
      exact write32le_sameOutside _ _ _
  | R_RISCV_PCREL_LO12_I =>
    let word := patchLoI (read32le s.data ptr) (s.last_hi.val - s.last_hi.addr)
    refine ⟨{ s with data := write32le s.data ptr word }, ?_, ?_, rfl, write32le_sameOutside _ _ _⟩
    · change (if s.last_hi.addr ≠ s.last_hi.addr then Except.error _ else _).bind _ = _
      rw [if_neg (fun hne => hne rfl)]
      rfl
    · simp only [read32le_write32le, word, hword]
  | R_RISCV_PCREL_LO12_S =>
    let word := patchLoS (read32le s.data ptr) (s.last_hi.val - s.last_hi.addr)
    refine ⟨{ s with data := write32le s.data ptr word }, ?_, ?_, rfl, write32le_sameOutside _ _ _⟩
    · change (if s.last_hi.addr ≠ s.last_hi.addr then Except.error _ else _).bind _ = _
      rw [if_neg (fun hne => hne rfl)]
      rfl
    · simp only [read32le_write32le, word, hword]

/-- `relocate` turns the words of the code into the linked words. -/
theorem relocate_all_linked (is : List Insn) {s : LinkState} {ptr : Nat}
    (hwords : Stands s.data ptr (is.map Insn.word)) (addr : BitVec 32) :
    ∃ s', relocate_all s (relocs ptr addr s.last_hi is) = .ok s' ∧
      Stands s'.data ptr (linked addr s.last_hi is) ∧ SameOutside ptr (4 * is.length) s.data s'.data := by
  induction is generalizing s ptr addr with
  | nil => exact ⟨s, rfl, trivial, SameOutside.refl _ _ _⟩
  | cons i is ih =>
    obtain ⟨s₁, hok₁, hword₁, hlast₁, hsame₁⟩ := i.relocate_spec hwords.1 addr
    obtain ⟨s₂, hok₂, hwords₂, hsame₂⟩ :=
      ih (Stands.of_sameOutside hsame₁ (Nat.le_refl _) hwords.2) (addr + 4#32)
    have hlen : (i :: is).length = is.length + 1 := rfl
    refine ⟨s₂, ?_, ⟨?_, ?_⟩, ?_⟩
    · rw [relocs, relocate_all_append, hok₁, ← hlast₁]
      exact hok₂
    · rw [hsame₂.read32le_eq (Or.inl (Nat.le_refl _)), hword₁]
    · rw [← hlast₁]
      exact hwords₂
    · exact (hsame₁.mono (Nat.le_refl _) (by omega)).trans (hsame₂.mono (by omega) (by omega))

end tcc.riscv32
