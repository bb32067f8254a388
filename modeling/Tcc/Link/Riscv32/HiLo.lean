import Tcc.Link.Relocate.HiLo
import Tcc.Link.Riscv32.Target

open machine machine.rv64

namespace tcc.link.riscv32

open RelocType

/-- How many bytes from its place on a relocation may patch. -/
def width (type : RelocType) : Nat :=
  match type with
  | R_RISCV_64 | R_RISCV_JUMP_SLOT => 4
  | type => type.width

/-- A relocation changes no byte outside the ones its type patches. -/
theorem relocate_sameOutside {s s' : LinkState} {rel : Rel} {type : RelocType} {ptr : Nat}
    {addr val : BitVec 32} (hok : relocate s rel type ptr addr val = .ok s') :
    SameOutside ptr (width type) s.data s'.data := by
  cases type with
  | R_RISCV_ALIGN | R_RISCV_RELAX | R_RISCV_32_PCREL | R_RISCV_COPY | other =>
    cases hok
    exact SameOutside.refl _ _ _
  | R_RISCV_BRANCH | R_RISCV_JAL | R_RISCV_PCREL_HI20 | R_RISCV_GOT_HI20 | R_RISCV_PCREL_LO12_I
  | R_RISCV_PCREL_LO12_S =>
    rw [relocate, if_error_else_ok_eq_ok] at hok
    obtain ⟨-, rfl⟩ := hok
    exact write32le_sameOutside _ _ _
  | R_RISCV_RVC_BRANCH | R_RISCV_RVC_JUMP =>
    rw [relocate, if_error_else_ok_eq_ok] at hok
    obtain ⟨-, rfl⟩ := hok
    exact write16le_sameOutside _ _ _
  | R_RISCV_CALL | R_RISCV_CALL_PLT =>
    cases hok
    exact ((write32le_sameOutside _ ptr _).mono (Nat.le_refl _) (Nat.add_le_add_left (by decide) _)).trans
      ((write32le_sameOutside _ (ptr + 4) _).mono (Nat.le_add_right _ _) (Nat.le_refl _))
  | R_RISCV_ADD32 | R_RISCV_SUB32 | R_RISCV_JUMP_SLOT =>
    cases hok
    exact write32le_sameOutside _ _ _
  | R_RISCV_32 =>
    rw [relocate, Except.ok.injEq] at hok
    subst hok
    split <;> exact write32le_sameOutside _ _ _
  | R_RISCV_64 =>
    simp only [relocate] at hok
    split at hok
    · split at hok <;> cases hok
      · exact SameOutside.refl _ _ _
      · exact write32le_sameOutside _ _ _
    · cases hok
      exact write32le_sameOutside _ _ _
  | R_RISCV_ADD64 | R_RISCV_SUB64 =>
    cases hok
    exact write64le_sameOutside _ _ _
  | R_RISCV_ADD16 | R_RISCV_SUB16 =>
    cases hok
    exact write16le_sameOutside _ _ _
  | R_RISCV_SET6 | R_RISCV_SUB6 =>
    cases hok
    exact update_sameOutside _ _ _

/-- Only the `HI20` relocations move the recorded high part, and they record
    their own place. -/
theorem relocate_last_hi {s s' : LinkState} {rel : Rel} {type : RelocType} {ptr : Nat}
    {addr val : BitVec 32} (hok : relocate s rel type ptr addr val = .ok s') :
    (¬type.IsHi ∧ s'.last_hi = s.last_hi) ∨ (type.IsHi ∧ s'.last_hi.addr = addr) := by
  cases type with
  | R_RISCV_PCREL_HI20 | R_RISCV_GOT_HI20 =>
    rw [relocate, if_error_else_ok_eq_ok] at hok
    obtain ⟨-, rfl⟩ := hok
    exact Or.inr ⟨by simp [RelocType.IsHi], rfl⟩
  | R_RISCV_BRANCH | R_RISCV_JAL | R_RISCV_PCREL_LO12_I | R_RISCV_PCREL_LO12_S
  | R_RISCV_RVC_BRANCH | R_RISCV_RVC_JUMP =>
    rw [relocate, if_error_else_ok_eq_ok] at hok
    obtain ⟨-, rfl⟩ := hok
    exact Or.inl ⟨by simp [RelocType.IsHi], rfl⟩
  | R_RISCV_64 =>
    simp only [relocate] at hok
    refine Or.inl ⟨by simp [RelocType.IsHi], ?_⟩
    split at hok
    · split at hok <;> cases hok <;> rfl
    · cases hok
      rfl
  | R_RISCV_32 =>
    rw [relocate, Except.ok.injEq] at hok
    subst hok
    refine Or.inl ⟨by simp [RelocType.IsHi], ?_⟩
    split <;> rfl
  | _ =>
    cases hok
    exact Or.inl ⟨by simp [RelocType.IsHi], rfl⟩

theorem pages_check (off : BitVec 32) : (pages off + 0x100000#64) >>> 21 = 0#64 := by
  have hlt := (off + 0x800#32).isLt
  have hwide : ((off + 0x800#32).setWidth 64).toNat = (off + 0x800#32).toNat := by
    rw [BitVec.toNat_setWidth, Nat.mod_eq_of_lt (by omega)]
  have hnat : (pages off).toNat = (off + 0x800#32).toNat / 2 ^ 12 := by
    rw [pages, BitVec.sshiftRight_eq_of_msb_false, BitVec.toNat_ushiftRight, hwide,
      Nat.shiftRight_eq_div_pow]
    rw [BitVec.msb_eq_decide, hwide, decide_eq_false_iff_not]
    omega
  apply BitVec.eq_of_toNat_eq
  rw [BitVec.toNat_ushiftRight, BitVec.toNat_add, hnat, Nat.shiftRight_eq_div_pow]
  simp only [BitVec.toNat_ofNat]
  omega

/-- One entry of a relocation section, with its place and value worked out. -/
structure Reloc where
  rel : Rel
  type : RelocType
  ptr : Nat
  addr : BitVec 32
  val : BitVec 32

def Reloc.apply (r : Reloc) (s : LinkState) : Except RelocError LinkState :=
  relocate s r.rel r.type r.ptr r.addr r.val

/-- The address a relocation is computed for: the symbol, or its GOT entry. -/
def Reloc.value (r : Reloc) (s : LinkState) : BitVec 32 :=
  if r.type = R_RISCV_GOT_HI20 then s.got_sh_addr + s.got_offset r.rel.sym else r.val

/-- A `HI20` relocation reports no error. It leaves the high part of the displacement in
    its place, and its place and value on record. -/
theorem Reloc.apply_hi {r : Reloc} (hhi : r.type.IsHi) (s : LinkState) : ∃ s', r.apply s = .ok s' ∧
    s'.data = write32le s.data r.ptr (patchCallHi (read32le s.data r.ptr) (r.value s - r.addr)) ∧
    s'.last_hi = ⟨r.addr, r.value s⟩ := by
  rw [Reloc.apply, Reloc.value]
  obtain htype | htype := hhi
  all_goals
    rw [htype, relocate, if_neg (not_not.mpr (pages_check _))]
    refine ⟨_, rfl, ?_⟩
    simp only [patchHi20_pages, reduceCtorEq, if_true, if_false, and_self]

/-- The entries of relocation sections are applied in order. -/
def relocate_all : LinkState → List Reloc → Except RelocError LinkState
  | s, [] => .ok s
  | s, r :: rs => do relocate_all (← r.apply s) rs

theorem relocate_all_cons {r : Reloc} {rs : List Reloc} {s s' : LinkState}
    (hok : relocate_all s (r :: rs) = .ok s') :
    ∃ s₁, r.apply s = .ok s₁ ∧ relocate_all s₁ rs = .ok s' := by
  rw [relocate_all] at hok
  cases hr : r.apply s with
  | error e =>
    rw [hr] at hok
    cases hok
  | ok s₁ =>
    rw [hr] at hok
    exact ⟨s₁, rfl, hok⟩

/-- What every entry keeps is kept by all of them. -/
theorem relocate_all_keeps {P : LinkState → Prop} {rs : List Reloc} {s s' : LinkState}
    (hkeep : ∀ r ∈ rs, ∀ s s', P s → r.apply s = .ok s' → P s')
    (hok : relocate_all s rs = .ok s') (hs : P s) : P s' := by
  induction rs generalizing s with
  | nil =>
    cases hok
    exact hs
  | cons r rs ih =>
    obtain ⟨s₁, hr, hrest⟩ := relocate_all_cons hok
    exact ih (fun r' hr' => hkeep r' (List.mem_cons_of_mem r hr')) hrest
      (hkeep r List.mem_cons_self s s₁ hs hr)

/-- After another high part has been recorded, the place of the first one is gone. -/
theorem relocate_all_last_hi_ne {rs : List Reloc} {s s' : LinkState} {addr : BitVec 32}
    (haddr : ∀ r ∈ rs, r.type.IsHi → r.addr ≠ addr) (hother : ∃ r ∈ rs, r.type.IsHi)
    (hok : relocate_all s rs = .ok s') : s'.last_hi.addr ≠ addr := by
  induction rs generalizing s with
  | nil =>
    obtain ⟨r, hr, -⟩ := hother
    cases hr
  | cons r rs ih =>
    obtain ⟨s₁, hr, hrest⟩ := relocate_all_cons hok
    have haddr' (r' : Reloc) (hr' : r' ∈ rs) : r'.type.IsHi → r'.addr ≠ addr :=
      haddr r' (List.mem_cons_of_mem r hr')
    by_cases hmore : ∃ r' ∈ rs, r'.type.IsHi
    · exact ih haddr' hmore hrest
    · have hhi : r.type.IsHi := by
        obtain ⟨r', hr', hhi'⟩ := hother
        obtain rfl | hr' := List.mem_cons.mp hr'
        · exact hhi'
        · exact absurd ⟨r', hr', hhi'⟩ hmore
      obtain ⟨hlo, -⟩ | ⟨-, hmoved⟩ := relocate_last_hi hr
      · exact absurd hhi hlo
      · refine relocate_all_keeps (P := fun s => s.last_hi.addr ≠ addr) (fun r' hr' s s' hs hr₁ => ?_) hrest ?_
        · obtain ⟨-, hsame⟩ | ⟨hhi', -⟩ := relocate_last_hi hr₁
          · rwa [hsame]
          · exact absurd ⟨r', hr', hhi'⟩ hmore
        · rw [hmoved]
          exact haddr r List.mem_cons_self hhi

/-- A link that has processed a `HI20` relocation and whatever stands between it
    and a low part that names its place. The relocations between them patch
    other places. -/
structure HiLoLink where
  start : LinkState
  hi : Reloc
  between : List Reloc
  beforeLo : LinkState
  lo : Reloc
  hhi : hi.type.IsHi
  hlo : lo.type = R_RISCV_PCREL_LO12_I ∨ lo.type = R_RISCV_PCREL_LO12_S
  hrun : relocate_all start (hi :: between) = .ok beforeLo
  hmatch : lo.val = hi.addr
  hplace : lo.ptr + 4 ≤ hi.ptr ∨ hi.ptr + 4 ≤ lo.ptr
  hapart : ∀ r ∈ between, hi.ptr + 4 ≤ r.ptr ∨ r.ptr + width r.type ≤ hi.ptr
  haddr : ∀ r ∈ between, r.type.IsHi → r.addr ≠ hi.addr

/-- The low immediate of the pair, in the format of the low relocation. -/
def HiLoLink.immLo (l : HiLoLink) (w : Word) : BitVec 32 :=
  if l.lo.type = R_RISCV_PCREL_LO12_I then rv32.immI w else rv32.immS w

def HiLoLink.loFormat (l : HiLoLink) : Format :=
  if l.lo.type = R_RISCV_PCREL_LO12_I then .I else .S

/-- No error is reported, as every displacement has a high and a low part: the `auipc` and
    the instruction with the low part together designate the target and keep their other
    bits. -/
def HiLoLink.Exact (l : HiLoLink) : Prop :=
  ∃ s', l.lo.apply l.beforeLo = .ok s' ∧
    l.hi.addr + rv32.immU (read32le s'.data l.hi.ptr) + l.immLo (read32le s'.data l.lo.ptr) =
      l.hi.value l.start ∧
    Format.U.SameOpcode (read32le l.start.data l.hi.ptr) (read32le s'.data l.hi.ptr) ∧
    l.loFormat.SameOpcode (read32le l.beforeLo.data l.lo.ptr) (read32le s'.data l.lo.ptr)

/-- Before the low part is relocated, the high part is in place and on record. -/
theorem HiLoLink.beforeLo_spec (l : HiLoLink) (hnone : ¬∃ r ∈ l.between, r.type.IsHi) :
    read32le l.beforeLo.data l.hi.ptr =
        patchCallHi (read32le l.start.data l.hi.ptr) (l.hi.value l.start - l.hi.addr) ∧
      l.beforeLo.last_hi = ⟨l.hi.addr, l.hi.value l.start⟩ := by
  obtain ⟨s₁, hr, hrest⟩ := relocate_all_cons l.hrun
  obtain ⟨s₂, hr', hdata, hlast⟩ := Reloc.apply_hi l.hhi l.start
  obtain rfl : s₁ = s₂ := Except.ok.inj (hr.symm.trans hr')
  constructor
  · refine relocate_all_keeps (P := fun s => read32le s.data l.hi.ptr = _)
      (fun r hr s s' hs hok => ?_) hrest ?_
    · rw [← hs]
      exact (relocate_sameOutside hok).read32le_eq (l.hapart r hr)
    · rw [hdata, read32le_write32le]
  · refine relocate_all_keeps (P := fun s => s.last_hi = _) (fun r hr s s' hs hok => ?_) hrest hlast
    obtain ⟨-, hsame⟩ | ⟨hhi, -⟩ := relocate_last_hi hok
    · rw [hsame, hs]
    · exact absurd ⟨r, hr, hhi⟩ hnone

theorem HiLoLink.exact_iff_last (l : HiLoLink) : l.Exact ↔ ¬∃ r ∈ l.between, r.type.IsHi := by
  constructor
  · rintro ⟨s', hok, -⟩ hother
    obtain ⟨s₁, -, hrest⟩ := relocate_all_cons l.hrun
    have hne := relocate_all_last_hi_ne l.haddr hother hrest
    rw [Reloc.apply] at hok
    obtain htype | htype := l.hlo
    all_goals
      rw [htype, relocate, if_error_else_ok_eq_ok, not_not, l.hmatch] at hok
      exact hne hok.1.symm
  · intro hnone
    obtain ⟨hword, hlast⟩ := l.beforeLo_spec hnone
    have hkeep (x : Word) : read32le (write32le l.beforeLo.data l.lo.ptr x) l.hi.ptr =
        patchCallHi (read32le l.start.data l.hi.ptr) (l.hi.value l.start - l.hi.addr) := by
      rw [(write32le_sameOutside _ l.lo.ptr x).read32le_eq l.hplace.symm, hword]
    have hsum (off : BitVec 32) (hoff : off = l.hi.value l.start - l.hi.addr) :
        l.hi.addr + ((off + 0x800#32) &&& ~~~0xfff#32) + (off.setWidth 12).signExtend 32 =
          l.hi.value l.start := by
      rw [BitVec.add_assoc, rv32.hi_add_lo, hoff, BitVec.add_comm, BitVec.sub_add_cancel]
    unfold HiLoLink.Exact HiLoLink.immLo HiLoLink.loFormat
    rw [Reloc.apply, l.hmatch]
    obtain htype | htype := l.hlo
    · rw [htype, relocate, hlast, if_neg (fun h => h rfl)]
      refine ⟨_, rfl, ?_⟩
      simp only [hkeep, read32le_write32le, if_true, immU_patchCallHi, immI_patchLoI]
      exact ⟨hsum _ rfl, patchCallHi_opcode _ _, patchLoI_opcode _ _⟩
    · rw [htype, relocate, hlast, if_neg (fun h => h rfl)]
      refine ⟨_, rfl, ?_⟩
      simp only [hkeep, read32le_write32le, reduceCtorEq, if_false, immU_patchCallHi, immS_patchLoS]
      exact ⟨hsum _ rfl, patchCallHi_opcode _ _, patchLoS_opcode _ _⟩

/-- `R_RISCV_32` adds the target to the addend that stands in the place. -/
theorem absolute_exact (s : LinkState) (rel : Rel) (ptr : Nat) (addr val : BitVec 32) :
    ∃ s', relocate s rel R_RISCV_32 ptr addr val = .ok s' ∧
      read32le s'.data ptr = read32le s.data ptr + val ∧ SameOutside ptr 4 s.data s'.data := by
  refine ⟨_, rfl, ?_⟩
  split <;> exact ⟨read32le_write32le _ _ _, write32le_sameOutside _ _ _⟩

/-- When `relocate` is exact: one relocation with the displacements of `Accurate`, a high and
    a low part when no other high part is between them, an absolute word always. -/
theorem relocate_exact_iff (k : PcRel) (s : LinkState) (rel : Rel) (ptr : Nat)
    (addr val : BitVec 32) (l : HiLoLink) :
    (Exact k s rel ptr addr val ↔ Accurate k (val - addr)) ∧
      (∀ r : Reloc, r.type.IsHi → ∃ s', r.apply s = .ok s') ∧
      (l.Exact ↔ ¬∃ r ∈ l.between, r.type.IsHi) ∧
      ∃ s', relocate s rel R_RISCV_32 ptr addr val = .ok s' ∧
        read32le s'.data ptr = read32le s.data ptr + val ∧ SameOutside ptr 4 s.data s'.data := by
  refine ⟨exact_iff_accurate s rel ptr addr val k, fun r hhi => ?_, l.exact_iff_last,
    absolute_exact s rel ptr addr val⟩
  obtain ⟨s', hok, -⟩ := Reloc.apply_hi hhi s
  exact ⟨s', hok⟩

/-- A linker state whose only section holds `beq x0, x0, 0` at offset 0. -/
def branchSection : LinkState where
  data := write32le (fun _ => 0#8) 0 0x63#32
  last_hi := ⟨0, 0⟩
  got_sh_addr := 0
  got_offset := fun _ => 0
  dyn_index := fun _ => 0
  sym_name := fun _ => ""
  output_dll := false
  qrel := []
  nb_errors := 0

/-- A branch forward by 8 is patched into one by 16, and one back by 8 is an error. -/
theorem branch_misses : ¬Exact .branch branchSection ⟨0, 1⟩ 0 0x10000#32 0x10008#32 ∧
    ¬Exact .branch branchSection ⟨0, 1⟩ 0 0x10000#32 0xfff8#32 := by
  constructor
  · rintro ⟨htarget, -⟩
    revert htarget
    decide
  · intro hout
    exact hout ⟨rfl, by decide, by decide⟩

theorem hiLo_pair_exact : ∃ l : HiLoLink, l.between = [] ∧ l.Exact := by
  let l : HiLoLink :=
    { start := branchSection
      hi := ⟨⟨0, 1⟩, R_RISCV_PCREL_HI20, 0, 0x10000#32, 0x12800#32⟩
      between := []
      beforeLo := _
      lo := ⟨⟨4, 2⟩, R_RISCV_PCREL_LO12_I, 4, 0x10004#32, 0x10000#32⟩
      hhi := .inl rfl
      hlo := .inl rfl
      hrun := rfl
      hmatch := rfl
      hplace := .inr (by decide)
      hapart := by simp
      haddr := by simp }
  refine ⟨l, rfl, (relocate_exact_iff .jal branchSection ⟨0, 1⟩ 0 0 0 l).2.2.1.mpr ?_⟩
  rintro ⟨r, hr, -⟩
  cases hr

end tcc.link.riscv32
