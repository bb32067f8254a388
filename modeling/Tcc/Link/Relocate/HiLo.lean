import Tcc.Link.Relocate.Target

open machine machine.rv64

namespace tcc.link

open RelocType

/-- How many bytes from its place on a relocation may patch. -/
def RelocType.width : RelocType → Nat
  | R_RISCV_ALIGN | R_RISCV_RELAX | R_RISCV_32_PCREL | R_RISCV_COPY | other _ => 0
  | R_RISCV_SET6 | R_RISCV_SUB6 => 1
  | R_RISCV_RVC_BRANCH | R_RISCV_RVC_JUMP | R_RISCV_ADD16 | R_RISCV_SUB16 => 2
  | R_RISCV_BRANCH | R_RISCV_JAL | R_RISCV_PCREL_HI20 | R_RISCV_GOT_HI20 | R_RISCV_PCREL_LO12_I
  | R_RISCV_PCREL_LO12_S | R_RISCV_32 | R_RISCV_ADD32 | R_RISCV_SUB32 => 4
  | R_RISCV_CALL | R_RISCV_CALL_PLT | R_RISCV_64 | R_RISCV_JUMP_SLOT | R_RISCV_ADD64
  | R_RISCV_SUB64 => 8

/-- The relocations that record a high part for later low parts. -/
def RelocType.IsHi (type : RelocType) : Prop :=
  type = R_RISCV_PCREL_HI20 ∨ type = R_RISCV_GOT_HI20

theorem update_sameOutside (p : Bytes) (i : Nat) (x : BitVec 8) :
    SameOutside i 1 p (Function.update p i x) := by
  intro j hj
  exact Function.update_of_ne (by omega) _ _

/-- A relocation changes no byte outside the ones its type patches. -/
theorem relocate_sameOutside {s s' : LinkState} {rel : Rel} {type : RelocType} {ptr : Nat}
    {addr val : BitVec 64} (hok : relocate s rel type ptr addr val = .ok s') :
    SameOutside ptr type.width s.data s'.data := by
  cases type with
  | R_RISCV_ALIGN | R_RISCV_RELAX | R_RISCV_32_PCREL | R_RISCV_COPY | other =>
    simp only [relocate, Except.ok.injEq] at hok
    subst hok
    exact SameOutside.refl _ _ _
  | R_RISCV_BRANCH | R_RISCV_JAL | R_RISCV_PCREL_HI20 | R_RISCV_GOT_HI20 | R_RISCV_PCREL_LO12_I
  | R_RISCV_PCREL_LO12_S =>
    simp only [relocate, if_error_else_ok_eq_ok] at hok
    obtain ⟨_, rfl⟩ := hok
    exact write32le_sameOutside _ _ _
  | R_RISCV_RVC_BRANCH | R_RISCV_RVC_JUMP =>
    simp only [relocate, if_error_else_ok_eq_ok] at hok
    obtain ⟨_, rfl⟩ := hok
    exact write16le_sameOutside _ _ _
  | R_RISCV_CALL | R_RISCV_CALL_PLT =>
    simp only [relocate, Except.ok.injEq] at hok
    subst hok
    exact ((write32le_sameOutside _ ptr _).mono (by omega) (by simp [RelocType.width])).trans
      ((write32le_sameOutside _ (ptr + 4) _).mono (by omega) (by simp [RelocType.width]))
  | R_RISCV_ADD32 | R_RISCV_SUB32 =>
    simp only [relocate, Except.ok.injEq] at hok
    subst hok
    exact write32le_sameOutside _ _ _
  | R_RISCV_32 =>
    simp only [relocate, Except.ok.injEq] at hok
    subst hok
    split <;> exact write32le_sameOutside _ _ _
  | R_RISCV_64 =>
    simp only [relocate] at hok
    split at hok
    · split at hok <;> cases hok
      · exact SameOutside.refl _ _ _
      · exact write64le_sameOutside _ _ _
    · cases hok
      exact write64le_sameOutside _ _ _
  | R_RISCV_JUMP_SLOT | R_RISCV_ADD64 | R_RISCV_SUB64 =>
    simp only [relocate, Except.ok.injEq] at hok
    subst hok
    exact write64le_sameOutside _ _ _
  | R_RISCV_ADD16 | R_RISCV_SUB16 =>
    simp only [relocate, Except.ok.injEq] at hok
    subst hok
    exact write16le_sameOutside _ _ _
  | R_RISCV_SET6 | R_RISCV_SUB6 =>
    simp only [relocate, Except.ok.injEq] at hok
    subst hok
    exact update_sameOutside _ _ _

/-- Only the `HI20` relocations move the recorded high part, and they record
    their own place. -/
theorem relocate_last_hi {s s' : LinkState} {rel : Rel} {type : RelocType} {ptr : Nat}
    {addr val : BitVec 64} (hok : relocate s rel type ptr addr val = .ok s') :
    (¬ type.IsHi ∧ s'.last_hi = s.last_hi) ∨ (type.IsHi ∧ s'.last_hi.addr = addr) := by
  cases type with
  | R_RISCV_PCREL_HI20 | R_RISCV_GOT_HI20 =>
    simp only [relocate, if_error_else_ok_eq_ok] at hok
    obtain ⟨_, rfl⟩ := hok
    exact .inr ⟨by simp [RelocType.IsHi], rfl⟩
  | R_RISCV_BRANCH | R_RISCV_JAL | R_RISCV_PCREL_LO12_I | R_RISCV_PCREL_LO12_S
  | R_RISCV_RVC_BRANCH | R_RISCV_RVC_JUMP =>
    simp only [relocate, if_error_else_ok_eq_ok] at hok
    obtain ⟨_, rfl⟩ := hok
    exact .inl ⟨by simp [RelocType.IsHi], rfl⟩
  | R_RISCV_64 =>
    simp only [relocate] at hok
    refine .inl ⟨by simp [RelocType.IsHi], ?_⟩
    split at hok
    · split at hok <;> cases hok <;> rfl
    · cases hok
      rfl
  | R_RISCV_32 =>
    simp only [relocate, Except.ok.injEq] at hok
    subst hok
    refine .inl ⟨by simp [RelocType.IsHi], ?_⟩
    split <;> rfl
  | _ =>
    simp only [relocate, Except.ok.injEq] at hok
    subst hok
    exact .inl ⟨by simp [RelocType.IsHi], rfl⟩

/-- One entry of a relocation section, with its place and value worked out. -/
structure Reloc where
  rel : Rel
  type : RelocType
  ptr : Nat
  addr : BitVec 64
  val : BitVec 64

def Reloc.apply (r : Reloc) (s : LinkState) : Except RelocError LinkState :=
  relocate s r.rel r.type r.ptr r.addr r.val

/-- The entries of relocation sections are applied in order. -/
def relocate_all : LinkState → List Reloc → Except RelocError LinkState
  | s, [] => .ok s
  | s, r :: rs => do relocate_all (← r.apply s) rs

theorem relocate_all_cons {r : Reloc} {rs : List Reloc} {s s' : LinkState}
    (hok : relocate_all s (r :: rs) = .ok s') :
    ∃ s1, r.apply s = .ok s1 ∧ relocate_all s1 rs = .ok s' := by
  rw [relocate_all] at hok
  cases hr : r.apply s with
  | error e =>
    rw [hr] at hok
    cases hok
  | ok s1 =>
    rw [hr] at hok
    exact ⟨s1, rfl, hok⟩

/-- A word survives relocations of other places. -/
theorem relocate_all_read32le {rs : List Reloc} {s s' : LinkState} {i : Nat}
    (hok : relocate_all s rs = .ok s')
    (hapart : ∀ r ∈ rs, i + 4 ≤ r.ptr ∨ r.ptr + r.type.width ≤ i) :
    read32le s'.data i = read32le s.data i := by
  induction rs generalizing s with
  | nil =>
    cases hok
    rfl
  | cons r rs ih =>
    obtain ⟨s1, hr, hrest⟩ := relocate_all_cons hok
    rw [ih hrest (fun r' hr' => hapart r' (List.mem_cons_of_mem r hr'))]
    exact (relocate_sameOutside hr).read32le_eq (hapart r List.mem_cons_self)

theorem relocate_all_last_hi_eq {rs : List Reloc} {s s' : LinkState}
    (hok : relocate_all s rs = .ok s') (hnone : ∀ r ∈ rs, ¬ r.type.IsHi) :
    s'.last_hi = s.last_hi := by
  induction rs generalizing s with
  | nil =>
    cases hok
    rfl
  | cons r rs ih =>
    obtain ⟨s1, hr, hrest⟩ := relocate_all_cons hok
    rw [ih hrest (fun r' hr' => hnone r' (List.mem_cons_of_mem r hr'))]
    obtain ⟨_, hsame⟩ | ⟨hhi, _⟩ := relocate_last_hi hr
    · exact hsame
    · exact absurd hhi (hnone r List.mem_cons_self)

/-- Once another high part has been recorded, the place of the first one is
    not found again. -/
theorem relocate_all_last_hi_ne {rs : List Reloc} {s s' : LinkState} {addr : BitVec 64}
    (hok : relocate_all s rs = .ok s') (haddr : ∀ r ∈ rs, r.type.IsHi → r.addr ≠ addr)
    (hother : s.last_hi.addr ≠ addr ∨ ∃ r ∈ rs, r.type.IsHi) : s'.last_hi.addr ≠ addr := by
  induction rs generalizing s with
  | nil =>
    cases hok
    simpa using hother
  | cons r rs ih =>
    obtain ⟨s1, hr, hrest⟩ := relocate_all_cons hok
    apply ih hrest (fun r' hr' => haddr r' (List.mem_cons_of_mem r hr'))
    obtain ⟨hlo, hsame⟩ | ⟨hhi, hmoved⟩ := relocate_last_hi hr
    · rw [hsame]
      simpa [hlo] using hother
    · rw [hmoved]
      exact .inl (haddr r List.mem_cons_self hhi)

/-- A link that has processed a `HI20` relocation and whatever stands between it
    and a low part that names its place. The relocations between them patch
    other places. -/
structure HiLoLink where
  start : LinkState
  hi : Reloc
  afterHi : LinkState
  between : List Reloc
  beforeLo : LinkState
  lo : Reloc
  hhi : hi.type.IsHi
  hlo : lo.type = R_RISCV_PCREL_LO12_I ∨ lo.type = R_RISCV_PCREL_LO12_S
  happly : hi.apply start = .ok afterHi
  hbetween : relocate_all afterHi between = .ok beforeLo
  hmatch : lo.val = hi.addr
  hplace : lo.ptr + 4 ≤ hi.ptr ∨ hi.ptr + 4 ≤ lo.ptr
  hapart : ∀ r ∈ between, hi.ptr + 4 ≤ r.ptr ∨ r.ptr + r.type.width ≤ hi.ptr
  haddr : ∀ r ∈ between, r.type.IsHi → r.addr ≠ hi.addr

/-- The address the high part was computed for: the symbol, or its GOT entry. -/
def HiLoLink.val (l : HiLoLink) : BitVec 64 :=
  if l.hi.type = R_RISCV_GOT_HI20 then
    l.start.got_sh_addr + l.start.got_offset l.hi.rel.sym
  else l.hi.val

/-- The low immediate of the pair, in the format of the low relocation. -/
def HiLoLink.immLo (l : HiLoLink) (w : Word) : BitVec 64 :=
  if l.lo.type = R_RISCV_PCREL_LO12_I then immI w else immS w

def HiLoLink.loFormat (l : HiLoLink) : Format :=
  if l.lo.type = R_RISCV_PCREL_LO12_I then .I else .S

/-- The low relocation reports an error, or the `auipc` and the instruction with
    the low part together designate the target and keep their other bits. -/
def HiLoLink.Faithful (l : HiLoLink) : Prop :=
  ∀ s', l.lo.apply l.beforeLo = .ok s' →
    l.hi.addr + immU (read32le s'.data l.hi.ptr) + l.immLo (read32le s'.data l.lo.ptr) = l.val ∧
    Format.U.SameOpcode (read32le l.start.data l.hi.ptr) (read32le s'.data l.hi.ptr) ∧
    l.loFormat.SameOpcode (read32le l.beforeLo.data l.lo.ptr) (read32le s'.data l.lo.ptr)

/-- A pair is right when the rounded displacement fits in 32 bits, and harmless
    when another high part in between makes the low part fail. -/
def HiLoLink.InRange (l : HiLoLink) : Prop :=
  (∃ r ∈ l.between, r.type.IsHi) ∨
    -2 ^ 31 ≤ (l.val - l.hi.addr + 0x800#64).toInt ∧
      (l.val - l.hi.addr + 0x800#64).toInt < 2 ^ 31

/-- What a `HI20` relocation leaves: the high part of the target in its place,
    and the place and target on record. -/
theorem HiLoLink.afterHi_spec (l : HiLoLink) :
    read32le l.afterHi.data l.hi.ptr =
        patchCallHi (read32le l.start.data l.hi.ptr) (l.val - l.hi.addr) ∧
      l.afterHi.last_hi = ⟨l.hi.addr, l.val⟩ := by
  have happly := l.happly
  rw [Reloc.apply] at happly
  rw [HiLoLink.val]
  obtain htype | htype := l.hhi
  all_goals
    rw [htype, relocate, if_error_else_ok_eq_ok] at happly
    obtain ⟨_, hafter⟩ := happly
    rw [hafter, htype]
    simp [patchHi20_eq_patchCallHi]

theorem HiLoLink.faithful_of_hi_between (l : HiLoLink) (hother : ∃ r ∈ l.between, r.type.IsHi) :
    l.Faithful := by
  have hne := relocate_all_last_hi_ne l.hbetween l.haddr (.inr hother)
  intro s' hok
  rw [Reloc.apply] at hok
  obtain htype | htype := l.hlo
  all_goals
    rw [htype, relocate, if_error_else_ok_eq_ok, not_not, l.hmatch] at hok
    exact absurd hok.1.symm hne

/-- Without another high part in between, the low relocation succeeds and the
    pair holds the two parts of the rounded displacement. -/
theorem HiLoLink.lo_spec (l : HiLoLink) (hnone : ∀ r ∈ l.between, ¬ r.type.IsHi) :
    ∃ s', l.lo.apply l.beforeLo = .ok s' ∧
      immU (read32le s'.data l.hi.ptr) =
        (((l.val - l.hi.addr + 0x800#64) &&& ~~~0xfff#64).setWidth 32).signExtend 64 ∧
      l.immLo (read32le s'.data l.lo.ptr) = ((l.val - l.hi.addr).setWidth 12).signExtend 64 ∧
      Format.U.SameOpcode (read32le l.start.data l.hi.ptr) (read32le s'.data l.hi.ptr) ∧
      l.loFormat.SameOpcode (read32le l.beforeLo.data l.lo.ptr) (read32le s'.data l.lo.ptr) := by
  obtain ⟨hword, hlast⟩ := l.afterHi_spec
  have hlast' : l.beforeLo.last_hi = ⟨l.hi.addr, l.val⟩ :=
    (relocate_all_last_hi_eq l.hbetween hnone).trans hlast
  have hword' := (relocate_all_read32le l.hbetween l.hapart).trans hword
  have hkeep (x : Word) : read32le (write32le l.beforeLo.data l.lo.ptr x) l.hi.ptr =
      patchCallHi (read32le l.start.data l.hi.ptr) (l.val - l.hi.addr) := by
    rw [(write32le_sameOutside _ l.lo.ptr x).read32le_eq l.hplace.symm, hword']
  unfold HiLoLink.immLo HiLoLink.loFormat
  rw [Reloc.apply, l.hmatch]
  obtain htype | htype := l.hlo
  · rw [htype, relocate, hlast', if_neg (by simp)]
    refine ⟨_, rfl, ?_⟩
    simp only [hkeep, read32le_write32le, if_true, patchCallHi_imm, patchLoI_imm, true_and]
    exact ⟨patchCallHi_opcode _ _, patchLoI_opcode _ _⟩
  · rw [htype, relocate, hlast', if_neg (by simp)]
    refine ⟨_, rfl, ?_⟩
    simp only [hkeep, read32le_write32le, reduceCtorEq, if_false, patchCallHi_imm, patchLoS_imm,
      true_and]
    exact ⟨patchCallHi_opcode _ _, patchLoS_opcode _ _⟩

theorem HiLoLink.faithful_iff (l : HiLoLink) : l.Faithful ↔ l.InRange := by
  by_cases hother : ∃ r ∈ l.between, r.type.IsHi
  · exact iff_of_true (l.faithful_of_hi_between hother) (.inl hother)
  · have hnone : ∀ r ∈ l.between, ¬ r.type.IsHi := by simpa using hother
    obtain ⟨s', hok, himm, hlo, hopHi, hopLo⟩ := l.lo_spec hnone
    simp only [HiLoLink.InRange, hother, false_or, ← hi_lo_target_iff, HiLoLink.Faithful]
    constructor
    · intro hfaithful
      obtain ⟨hval, _⟩ := hfaithful s' hok
      rwa [himm, hlo] at hval
    · intro hval s'' hok'
      obtain rfl : s'' = s' := by simpa [hok, eq_comm] using hok'
      exact ⟨by rw [himm, hlo, hval], hopHi, hopLo⟩

/-- `relocate` never cuts a displacement silently exactly on the ranges of
    `PcRel.InRange`, for one relocation, and of `HiLoLink.InRange`, for a high
    part and a low part that are processed at different times. -/
theorem relocate_faithful_iff (k : PcRel) (s : LinkState) (rel : Rel) (ptr : Nat)
    (addr val : BitVec 64) (l : HiLoLink) :
    (k.Faithful s rel ptr addr val ↔ k.InRange (val - addr)) ∧ (l.Faithful ↔ l.InRange) := by
  refine ⟨?_, HiLoLink.faithful_iff l⟩
  cases k with
  | branch => exact iff_of_true (PcRel.branch_faithful s rel ptr addr val) trivial
  | jal => exact PcRel.jal_faithful_iff s rel ptr addr val
  | call => exact PcRel.call_faithful_iff s rel ptr addr val
  | call_plt => exact PcRel.call_faithful_iff s rel ptr addr val
  | rvc_branch => exact iff_of_true (PcRel.rvc_branch_faithful s rel ptr addr val) trivial
  | rvc_jump => exact iff_of_true (PcRel.rvc_jump_faithful s rel ptr addr val) trivial

/-- A linker state whose only section holds `jal x0, 0` at offset 0. -/
def jumpSection : LinkState where
  data := write32le (fun _ => 0#8) 0 0x6f#32
  last_hi := ⟨0, 0⟩
  got_sh_addr := 0
  got_offset := fun _ => 0
  dyn_index := fun _ => 0
  sym_name := fun _ => ""
  output_dyn := false
  qrel := []

/-- A jump forward by one megabyte is accepted and becomes a jump backward. -/
theorem jal_one_megabyte :
    ¬ PcRel.jal.Faithful jumpSection ⟨0, 1, 0⟩ 0 0x10000#64 0x110000#64 := by
  intro hfaithful
  obtain ⟨hval, _⟩ := hfaithful _ rfl
  revert hval
  decide

theorem pcrel_pair_in_range : ∃ l : HiLoLink, l.between = [] ∧ l.Faithful := by
  let l : HiLoLink :=
    { start := jumpSection
      hi := ⟨⟨0, 1, 0⟩, R_RISCV_PCREL_HI20, 0, 0x10000#64, 0x12800#64⟩
      afterHi := _
      between := []
      beforeLo := _
      lo := ⟨⟨4, 2, 0⟩, R_RISCV_PCREL_LO12_I, 4, 0x10004#64, 0x10000#64⟩
      hhi := .inl rfl
      hlo := .inl rfl
      happly := rfl
      hbetween := rfl
      hmatch := rfl
      hplace := .inr (by decide)
      hapart := by simp
      haddr := by simp }
  exact ⟨l, rfl, (relocate_faithful_iff .jal jumpSection ⟨0, 1, 0⟩ 0 0 0 l).2.mpr (.inr (by decide))⟩

end tcc.link
