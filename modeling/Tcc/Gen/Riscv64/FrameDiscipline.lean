import Tcc.Gen.Riscv64.FrameLayout

open machine.rv64

namespace tcc.riscv64

section

variable (n : Nat) (loc : BitVec 32) (length : Nat)

/-- What a body leaves alone, from the state it is entered in to one in which it falls
    through to the epilogue. -/
structure Preserves (A B : Hart) : Prop where
  pc : B.pc = A.pc + BitVec.ofNat 64 (4 * length)
  s0 : B.get 8 = A.get 8
  saved : ∀ x ∈ cells (A.get 8 - 16#64) 16, B.mem x = A.mem x

/-- The function entered in `h` has returned from `B`. -/
structure Returned (h B F : Hart) : Prop where
  pc : F.pc = h.get 1 &&& ~~~1#64
  ra : F.get 1 = h.get 1
  sp : F.get 2 = h.get 2
  s0 : F.get 8 = h.get 8
  keep : ∀ q, q ≠ 1#5 → q ≠ 2#5 → q ≠ 5#5 → q ≠ 8#5 → F.get q = B.get q
  mem : F.mem = B.mem

/-- The slots of the frame, from the locals to the last saved variadic register, lie
    between the stack pointer and its value at the entry. -/
def SlotsInside (h A : Hart) : Prop :=
  A.get 2 + BitVec.ofNat 64 (frameBytes n loc) = h.get 2 ∧
    ∀ o : Int, loc.toInt ≤ o → o < 8 * n → ∃ k < frameBytes n loc,
      A.get 8 + BitVec.ofInt 64 o = A.get 2 + BitVec.ofNat 64 k

/-- The stores of the variadic registers fill the bytes below the incoming stack
    arguments, in order, and no others. -/
def SavesRegisters (h A : Hart) : Prop :=
  ∃ saves, va_saves (8 - n) = some saves ∧ ∀ S, S.get 8 = A.get 8 →
    ∃ S', run saves S = some S' ∧ (∀ q, S'.get q = S.get q) ∧
      (∀ k < n, loadLE S'.mem (h.get 2 - BitVec.ofNat 64 (8 * (n - k))) 8 =
        S.get (BitVec.ofNat 5 (18 - n + k))) ∧
      ∀ x, x ∉ cells (A.get 8) (8 * n) → S'.mem x = S.mem x

variable (func_sub_sp_offset : BitVec 32) (body : List Word)

/-- The code of a function, in the order in which it is laid out. -/
def functionCode : Option (List Word × List Word × List Word) :=
  gfunc_epilog loc (BitVec.ofNat 32 n) func_sub_sp_offset
    (func_sub_sp_offset + BitVec.ofNat 32 (4 * (5 + body.length)))

variable (Body : Hart → Hart → Prop)

/-- The header gives the function its frame and the epilogue takes it away. -/
def Discipline : Prop :=
  ∃ header epilog enlarge, functionCode n loc func_sub_sp_offset body = some (header, epilog, enlarge) ∧
    header.length = 5 ∧ ∀ code h,
      Loaded code h.pc (header ++ (body ++ (epilog ++ enlarge))) → h.pc.getLsbD 0 = false →
        ∃ fuel A, runTo code (h.pc + 20#64) fuel h = some A ∧ Entered n (frameBytes n loc) h A ∧
          SlotsInside n loc h A ∧ SavesRegisters n h A ∧
          ∀ B, Body A B → ∃ F, steps code epilog.length B = some F ∧ Returned h B F

/-- The frames and bodies that the emitted immediates and jumps are right for. -/
def FrameFits : Prop :=
  frameBytes n loc < 2 ^ 11 ∨ (frameBytes n loc < 2 ^ 31 - 2032 ∧
    (4 * length + 44 ≤ 2 ^ 20 ∨ (2 ^ 21 ≤ 4 * length + 36 ∧ 4 * length + 36 < 2 ^ 31 - 2048)))

/-- The body leaves the stack pointer where the header has put it. -/
def KeepsStackPointer : Prop :=
  ∀ header epilog enlarge code h fuel A B,
    functionCode n loc func_sub_sp_offset body = some (header, epilog, enlarge) →
    Loaded code h.pc (header ++ (body ++ (epilog ++ enlarge))) → h.pc.getLsbD 0 = false →
    runTo code (h.pc + 20#64) fuel h = some A → Body A B → B.get 2 = A.get 2

end

theorem cells_add_subset {addr : BitVec 64} {a n m : Nat} (h : a + n ≤ m) :
    cells (addr + BitVec.ofNat 64 a) n ⊆ cells addr m := by
  rintro _ ⟨k, hk, rfl⟩
  exact ⟨a + k, by omega, by rw [BitVec.add_assoc, BitVec.ofNat_add]⟩

theorem va_saves_step {n m : Nat} (hn : n ≤ 8) (hm : m ≤ n) : ∃ saves,
    (List.range m).mapM (fun k => ES 0x23 3 8 (BitVec.ofNat 5 (10 + (8 - n) + k))
      (BitVec.ofNat 32 (8 * (k + 1)) - 8#32)) = some saves ∧
    ∀ S, ∃ S', run saves S = some S' ∧ (∀ q, S'.get q = S.get q) ∧
      (∀ k < m, loadLE S'.mem (S.get 8 + BitVec.ofNat 64 (8 * k)) 8 =
        S.get (BitVec.ofNat 5 (18 - n + k))) ∧
      ∀ x, x ∉ cells (S.get 8) (8 * m) → S'.mem x = S.mem x := by
  induction m with
  | zero => exact ⟨[], rfl, fun S => ⟨S, rfl, fun _ => rfl, fun k hk => by omega, fun _ _ => rfl⟩⟩
  | succ m ih =>
    obtain ⟨saves, hsaves, hrun⟩ := ih (by omega)
    have himm : BitVec.ofNat 32 (8 * (m + 1)) - 8#32 = BitVec.ofInt 32 (8 * m : Nat) := by
      rw [← BitVec.ofInt_natCast, ofInt_sub_ofNat]
      congr 1
      omega
    obtain ⟨w, hw⟩ : ∃ w, ES 0x23 3 8 (BitVec.ofNat 5 (10 + (8 - n) + m))
        (BitVec.ofInt 32 (8 * m : Nat)) = some w :=
      ⟨_, if_pos (imm12_ofInt (by omega) (by omega))⟩
    refine ⟨saves ++ [w], ?_, fun S => ?_⟩
    · rw [List.range_succ, List.mapM_append, hsaves, List.mapM_cons, List.mapM_nil, himm, hw]
      rfl
    · obtain ⟨S₁, hrun₁, hregs₁, hload₁, hmem₁⟩ := hrun S
      obtain ⟨S₂, hexec₂, hregs₂, hmem₂⟩ := step_sd hw S₁
      rw [signExtend_ofInt (by omega) (by omega), BitVec.ofInt_natCast, hregs₁, hregs₁,
        show 10 + (8 - n) + m = 18 - n + m by omega] at hmem₂
      refine ⟨S₂, ?_, fun q => (hregs₂ q).trans (hregs₁ q), fun k hk => ?_, fun x hx => ?_⟩
      · rw [run_append, hrun₁, Option.bind_some, run_cons, hexec₂, Option.bind_some, run_nil]
      · rw [hmem₂]
        by_cases hkm : k = m
        · rw [hkm, loadLE_storeLE_eight]
        · have hsplit : S.get 8 + BitVec.ofNat 64 (8 * m) =
              S.get 8 + BitVec.ofNat 64 (8 * k) + BitVec.ofNat 64 (8 * (m - k)) := by
            rw [BitVec.add_assoc, ← BitVec.ofNat_add]
            congr 2
            omega
          rw [hsplit, loadLE_storeLE_of_disjoint, hload₁ k (by omega)]
          have hval : (BitVec.ofNat 64 (8 * (m - k))).toNat = 8 * (m - k) := by
            rw [BitVec.toNat_ofNat]
            omega
          exact disjoint_cells (by omega) (by omega)
      · rw [hmem₂, storeLE_of_notMem fun h => hx (cells_add_subset (by omega) h)]
        have hsub := @cells_add_subset (S.get 8) 0 _ _ (show 0 + 8 * m ≤ 8 * (m + 1) by omega)
        rw [BitVec.ofNat_eq_ofNat, BitVec.add_zero] at hsub
        exact hmem₁ x fun h => hx (hsub h)

section

variable {n : Nat} {loc : BitVec 32} {length : Nat} {h A B F : Hart}

theorem Entered.savesRegisters (hn : n ≤ 8) (hentered : Entered n (frameBytes n loc) h A) :
    SavesRegisters n h A := by
  obtain ⟨saves, hsaves, hrun⟩ := va_saves_step hn le_rfl
  refine ⟨saves, ?_, fun S hS => ?_⟩
  · rw [va_saves, show 8 - (8 - n) = n by omega]
    exact hsaves
  · obtain ⟨S', hrun', hregs, hload, hmem⟩ := hrun S
    refine ⟨S', hrun', hregs, fun k hk => ?_, fun x hx => hmem x (hS ▸ hx)⟩
    rw [← hload k hk, hS, hentered.s0, sub_ofNat, sub_ofNat, ← BitVec.ofInt_natCast, add_ofInt_ofInt]
    congr 3
    omega

theorem Entered.slotsInside (hlo : -2 ^ 31 < loc.toInt) (hhi : loc.toInt ≤ -16)
    (hentered : Entered n (frameBytes n loc) h A) : SlotsInside n loc h A := by
  have hbounds := frameBytes_bounds (n := n) hlo hhi
  refine ⟨by rw [hentered.sp, BitVec.sub_add_cancel], fun o hmin hmax => ?_⟩
  refine ⟨(frameBytes n loc - 8 * n + o).toNat, by omega, ?_⟩
  rw [hentered.s0, hentered.sp, sub_ofNat, sub_ofNat, ← BitVec.ofInt_natCast, add_ofInt_ofInt,
    add_ofInt_ofInt]
  congr 2
  omega

theorem saved_ra (n : Nat) (h : Hart) :
    loadLE (saved n h) (h.get 2 - BitVec.ofNat 64 (8 * n + 8)) 8 = h.get 1 := by
  have hsplit : h.get 2 - BitVec.ofNat 64 (8 * n + 8) =
      h.get 2 - BitVec.ofNat 64 (8 * n + 16) + 8#64 := by
    rw [sub_ofNat, sub_ofNat, ← BitVec.ofInt_natCast 64 8, add_ofInt_ofInt]
    congr 2
  rw [saved, loadLE_storeLE_of_disjoint, loadLE_storeLE_eight]
  rw [hsplit, disjoint_comm]
  exact disjoint_cells (by decide) (by decide)

theorem saved_s0 (n : Nat) (h : Hart) :
    loadLE (saved n h) (h.get 2 - BitVec.ofNat 64 (8 * n + 16)) 8 = h.get 8 := by
  rw [saved, loadLE_storeLE_eight]

/-- The body has kept what the epilogue loads. -/
theorem Restored.returned (hentered : Entered n (frameBytes n loc) h A)
    (hbody : Preserves length A B) (hrestored : Restored n (h.get 2) B F) : Returned h B F := by
  have hload (k : Nat) (hk : k = 8 ∨ k = 16) :
      loadLE B.mem (h.get 2 - BitVec.ofNat 64 (8 * n + k)) 8 =
        loadLE (saved n h) (h.get 2 - BitVec.ofNat 64 (8 * n + k)) 8 := by
    have haddr : h.get 2 - BitVec.ofNat 64 (8 * n + k) =
        A.get 8 - 16#64 + BitVec.ofNat 64 (16 - k) := by
      rw [hentered.s0, sub_ofNat, sub_ofNat, sub_ofNat, add_ofInt_ofInt, ← BitVec.ofInt_natCast,
        add_ofInt_ofInt]
      congr 2
      omega
    apply loadLE_congr
    intro x hx
    rw [haddr] at hx
    rw [hbody.saved x (cells_add_subset (by omega) hx), hentered.mem]
  have hra : F.get 1 = h.get 1 := by
    rw [hrestored.ra, hload 8 (Or.inl rfl), saved_ra]
  exact {
    pc := by rw [hrestored.pc, hra]
    ra := hra
    sp := hrestored.sp
    s0 := by rw [hrestored.s0, hload 16 (Or.inr rfl), saved_s0]
    keep := hrestored.keep
    mem := hrestored.mem
  }

variable {offset : BitVec 32} {body header epilog enlarge : List Word} {code : Code}

theorem loaded_parts (hheader : header.length = 5)
    (hload : Loaded code h.pc (header ++ (body ++ (epilog ++ enlarge)))) :
    Loaded code h.pc header ∧
      Loaded code (h.pc + 20#64 + BitVec.ofNat 64 (4 * body.length)) epilog ∧
      Loaded code (h.pc + 20#64 + BitVec.ofNat 64 (4 * body.length) +
        BitVec.ofNat 64 (4 * epilog.length)) enlarge := by
  obtain ⟨hload₁, hrest⟩ := Loaded.append hload
  rw [hheader] at hrest
  obtain ⟨-, hrest⟩ := Loaded.append hrest
  obtain ⟨hload₂, hload₃⟩ := Loaded.append hrest
  exact ⟨hload₁, hload₂, hload₃⟩

theorem run_epilog {last : Word} (hload : Loaded code B.pc (epilog ++ [last]))
    (hstraight : ∀ w ∈ epilog, Straight w) (hrun : run (epilog ++ [last]) B = some F) :
    steps code (epilog ++ [last]).length B = some F := by
  rw [List.length_append, List.length_singleton]
  exact steps_block_last hload hstraight hrun

variable {Body : Hart → Hart → Prop}

theorem discipline_of_small (hn : n ≤ 8) (hlo : -2 ^ 31 < loc.toInt) (hhi : loc.toInt ≤ -16)
    (hBody : ∀ A B, Body A B → Preserves body.length A B) (hsize : frameBytes n loc < 2 ^ 11)
    (hsp : KeepsStackPointer n loc offset body Body) : Discipline n loc offset body Body := by
  obtain ⟨header, epilog, last, hcode, hlen, hlen', hstraight, hstraight', henter, hrestore⟩ :=
    gfunc_epilog_small hn hlo hhi hsize offset (offset + BitVec.ofNat 32 (4 * (5 + body.length)))
  refine ⟨header, epilog ++ [last], [], hcode, hlen, fun code h hload heven => ?_⟩
  obtain ⟨hload₁, hload₂, -⟩ := loaded_parts hlen hload
  obtain ⟨A, hrun, hentered⟩ := henter h
  obtain ⟨hsteps, hpc⟩ := steps_block hload₁ hstraight hrun
  rw [hlen] at hpc
  have hne (i : Nat) (hi : i < header.length) :
      h.pc + BitVec.ofNat 64 (4 * i) ≠ h.pc + 20#64 := by
    rw [hlen] at hi
    rw [ne_eq, BitVec.add_right_inj]
    bv_omega
  obtain ⟨fuel, harrive⟩ := (Leads.block hload₁ hstraight hne hrun).arrives hpc
  refine ⟨fuel, A, harrive, hentered, hentered.slotsInside hlo hhi, hentered.savesRegisters hn,
    fun B hB => ?_⟩
  have hkeep := hBody A B hB
  obtain ⟨F, hrestored, hF⟩ := hrestore B
  rw [hsp header (epilog ++ [last]) [] code h fuel A B hcode hload heven harrive hB,
    (hentered.slotsInside hlo hhi).1] at hF
  have hloadB : Loaded code B.pc (epilog ++ [last]) := by
    rw [hkeep.pc, hpc]
    exact hload₂
  exact ⟨F, run_epilog hloadB hstraight' hrestored, hF.returned hentered hkeep⟩

theorem jump_displacement (offset : BitVec 32) (l : Nat) :
    offset + BitVec.ofNat 32 (4 * (5 + l)) + 28#32 - (offset + 12#32) = BitVec.ofNat 32 (4 * l + 36) := by
  bv_omega

theorem back_displacement (offset : BitVec 32) (l : Nat) :
    offset + 20#32 - (offset + BitVec.ofNat 32 (4 * (5 + l)) + 28#32 + 16#32) =
      -BitVec.ofNat 32 (4 * l + 44) := by
  bv_omega

theorem toInt_jump {l : Nat} (hl : 4 * (l + 18) < 2 ^ 31) :
    (BitVec.ofNat 32 (4 * l + 36)).toInt = 4 * l + 36 := by
  rw [← BitVec.ofInt_natCast, BitVec.toInt_ofInt, Int.bmod_eq_of_le_mul_two (by omega) (by omega)]
  omega

theorem toInt_back {l : Nat} (hl : 4 * (l + 18) < 2 ^ 31) :
    (-BitVec.ofNat 32 (4 * l + 44)).toInt = -(4 * l + 44) := by
  rw [← BitVec.ofInt_natCast, ← BitVec.ofInt_neg, BitVec.toInt_ofInt,
    Int.bmod_eq_of_le_mul_two (by omega) (by omega)]
  omega

theorem even_jump (l : Nat) : (BitVec.ofNat 32 (4 * l + 36)).getLsbD 0 = false := by
  rw [BitVec.getLsbD, Nat.testBit_zero, BitVec.toNat_ofNat, decide_eq_false_iff_not]
  omega

theorem even_back (l : Nat) : (-BitVec.ofNat 32 (4 * l + 44)).getLsbD 0 = false := by
  rw [BitVec.getLsbD, Nat.testBit_zero, BitVec.toNat_neg, BitVec.toNat_ofNat, decide_eq_false_iff_not]
  omega

section

variable {save jump pad block back : List Word} {last : Word}

/-- The first part of the header of a large frame, up to the jump. -/
theorem LargeFrame.saves
    (hframe : LargeFrame n (frameBytes n loc) offset
      (offset + BitVec.ofNat 32 (4 * (5 + body.length))) save jump pad epilog last block back)
    (hload : Loaded code h.pc (save ++ (jump ++ pad))) :
    ∃ h₁, Leads code (h.pc + 20#64) h h₁ ∧ h₁.pc = h.pc + 12#64 ∧ Loaded code h₁.pc jump ∧
      h₁.get 2 = h.get 2 + BitVec.ofInt 64 (-16) ∧ (∀ q, q ≠ 2#5 → h₁.get q = h.get q) ∧
      h₁.mem = saved n h := by
  obtain ⟨hload₁, hload₂⟩ := Loaded.append hload
  obtain ⟨h₁, hrun, hsp, hkeep, hmem⟩ := hframe.run_save h
  obtain ⟨-, hpc⟩ := steps_block hload₁ hframe.save_straight hrun
  rw [hframe.save_length] at hpc hload₂
  refine ⟨h₁, Leads.block hload₁ hframe.save_straight (fun i hi => ?_) hrun, hpc, ?_, hsp, hkeep, hmem⟩
  · rw [hframe.save_length] at hi
    rw [ne_eq, BitVec.add_right_inj]
    bv_omega
  · rw [hpc]
    exact (Loaded.append hload₂).1

/-- The jump, if it reaches, and the part of the header after the epilogue. -/
theorem LargeFrame.enlarges (hl : 4 * (body.length + 18) < 2 ^ 31)
    (hframe : LargeFrame n (frameBytes n loc) offset
      (offset + BitVec.ofNat 32 (4 * (5 + body.length))) save jump pad epilog last block back)
    (hreach : Reaches (BitVec.ofNat 32 (4 * body.length + 36))) (heven : h.pc.getLsbD 0 = false)
    (hload : Loaded code h.pc (save ++ (jump ++ pad)))
    (hload' : Loaded code (h.pc + 20#64 + BitVec.ofNat 64 (4 * body.length) + 28#64)
      (block ++ back)) :
    ∃ h₃, Leads code (h.pc + 20#64) h h₃ ∧
      h₃.pc = h.pc + BitVec.ofNat 64 (4 * body.length + 64) ∧ Loaded code h₃.pc back ∧
      h₃.get 2 = h.get 2 - splitSum (BitVec.ofNat 32 (frameBytes n loc - 16)) - 16#64 ∧
      h₃.get 8 = h.get 2 - BitVec.ofNat 64 (8 * n) ∧
      (∀ q, q ≠ 2#5 → q ≠ 5#5 → q ≠ 8#5 → h₃.get q = h.get q) ∧ h₃.mem = saved n h := by
  obtain ⟨h₁, hleads₁, hpc₁, hload₁, hsp₁, hkeep₁, hmem₁⟩ := hframe.saves hload
  have hdisp := jump_displacement offset body.length
  obtain ⟨ws, hws, -, hjump⟩ := run_gjmp_addr (by rw [hdisp]; exact even_jump _) (by rw [hdisp]; exact hreach)
  obtain rfl : jump = ws := Option.some.inj (hframe.jump_eq.symm.trans hws)
  have heven₁ : h₁.pc.getLsbD 0 = false := by
    rw [hpc₁]
    exact even_add heven rfl
  obtain ⟨h₂, hleads₂, hpc₂, hmem₂, hkeep₂⟩ := hjump code h₁ (h.pc + 20#64) hload₁ heven₁
    (by bv_omega) (by bv_omega)
  rw [hdisp, BitVec.signExtend, toInt_jump hl, hpc₁] at hpc₂
  have hblockpc : h₂.pc = h.pc + 20#64 + BitVec.ofNat 64 (4 * body.length) + 28#64 := by
    have hcast : (4 : Int) * body.length + 36 = (4 * body.length + 36 : Nat) := by push_cast; rfl
    rw [hpc₂, hcast, BitVec.ofInt_natCast]
    bv_omega
  rw [← hblockpc] at hload'
  obtain ⟨hload₂, hload₃⟩ := Loaded.append hload'
  obtain ⟨h₃, hrun₃, hs0₃, hsp₃, hkeep₃, hmem₃⟩ := hframe.run_block h₂
  obtain ⟨-, hpc₃⟩ := steps_block hload₂ hframe.block_straight hrun₃
  rw [hframe.block_length] at hpc₃ hload₃
  have hsp₂ : h₂.get 2 = h.get 2 + BitVec.ofInt 64 (-16) := (hkeep₂ 2 (by decide)).trans hsp₁
  refine ⟨h₃, (hleads₁.trans hleads₂).trans
    (Leads.block hload₂ hframe.block_straight (fun i hi => ?_) hrun₃), ?_, ?_, ?_, ?_,
    fun q h2 h5 h8 => ?_, ?_⟩
  · rw [hframe.block_length] at hi
    rw [hblockpc]
    bv_omega
  · rw [hpc₃, hblockpc]
    bv_omega
  · rw [hpc₃]
    exact hload₃
  · rw [hsp₃, hsp₂, show BitVec.ofInt 64 (-16) = -16#64 from rfl]
    bv_omega
  · rw [hs0₃, hsp₂, add_ofInt_ofInt, sub_ofNat]
    congr 2
    omega
  · rw [hkeep₃ q h2 h5 h8, hkeep₂ q h5, hkeep₁ q h2]
  · rw [hmem₃, hmem₂, hmem₁]

/-- The whole header of a large frame whose jumps reach. -/
theorem LargeFrame.enters (hl : 4 * (body.length + 18) < 2 ^ 31)
    (hframe : LargeFrame n (frameBytes n loc) offset
      (offset + BitVec.ofNat 32 (4 * (5 + body.length))) save jump pad epilog last block back)
    (hjump : Reaches (BitVec.ofNat 32 (4 * body.length + 36)))
    (hback : Reaches (-BitVec.ofNat 32 (4 * body.length + 44))) (heven : h.pc.getLsbD 0 = false)
    (hload : Loaded code h.pc
      (save ++ (jump ++ pad) ++ (body ++ ((epilog ++ [last]) ++ (block ++ back))))) :
    ∃ fuel A, runTo code (h.pc + 20#64) fuel h = some A ∧ A.pc = h.pc + 20#64 ∧
      A.get 2 = h.get 2 - splitSum (BitVec.ofNat 32 (frameBytes n loc - 16)) - 16#64 ∧
      A.get 8 = h.get 2 - BitVec.ofNat 64 (8 * n) ∧
      (∀ q, q ≠ 2#5 → q ≠ 5#5 → q ≠ 8#5 → A.get q = h.get q) ∧ A.mem = saved n h := by
  have hlen : (save ++ (jump ++ pad)).length = 5 := by
    rw [List.length_append, hframe.save_length, hframe.jump_length]
  have hlen' : (epilog ++ [last]).length = 7 := by
    rw [List.length_append, hframe.epilog_length, List.length_singleton]
  obtain ⟨hload₁, -, hload₃⟩ := loaded_parts hlen hload
  rw [hlen'] at hload₃
  obtain ⟨h₃, hleads₃, hpc₃, hloadback, hsp₃, hs0₃, hkeep₃, hmem₃⟩ :=
    hframe.enlarges hl hjump heven hload₁ hload₃
  have hdisp := back_displacement offset body.length
  obtain ⟨ws, hws, -, hjumpback⟩ :=
    run_gjmp_addr (by rw [hdisp]; exact even_back _) (by rw [hdisp]; exact hback)
  obtain rfl : back = ws := Option.some.inj (hframe.back_eq.symm.trans hws)
  have heven₃ : h₃.pc.getLsbD 0 = false := by
    rw [hpc₃]
    refine even_add heven ?_
    rw [BitVec.getLsbD, Nat.testBit_zero, BitVec.toNat_ofNat, decide_eq_false_iff_not]
    omega
  obtain ⟨A, hleadsA, hpcA, hmemA, hkeepA⟩ := hjumpback code h₃ (h.pc + 20#64) hloadback heven₃
    (by rw [hpc₃]; bv_omega) (by rw [hpc₃]; bv_omega)
  have hpc : A.pc = h.pc + 20#64 := by
    have hcast : -((4 : Int) * body.length + 44) = -((4 * body.length + 44 : Nat) : Int) := by
      push_cast
      rfl
    rw [hpcA, hdisp, BitVec.signExtend, toInt_back hl, hpc₃, hcast, BitVec.ofInt_neg,
      BitVec.ofInt_natCast]
    bv_omega
  obtain ⟨fuel, harrive⟩ := (hleads₃.trans hleadsA).arrives hpc
  refine ⟨fuel, A, harrive, hpc, ?_, ?_, fun q h2 h5 h8 => ?_, hmemA.trans hmem₃⟩
  · rw [hkeepA 2 (by decide), hsp₃]
  · rw [hkeepA 8 (by decide), hs0₃]
  · rw [hkeepA q h5, hkeep₃ q h2 h5 h8]

theorem toInt_size (hmin : 2048 ≤ frameBytes n loc) (hmax : frameBytes n loc < 2 ^ 31) :
    (BitVec.ofNat 32 (frameBytes n loc - 16)).toInt = (frameBytes n loc - 16 : Nat) := by
  rw [← BitVec.ofInt_natCast, BitVec.toInt_ofInt, Int.bmod_eq_of_le_mul_two (by omega) (by omega)]

theorem splitSum_size_iff (hmin : 2048 ≤ frameBytes n loc) (hmax : frameBytes n loc < 2 ^ 31) :
    splitSum (BitVec.ofNat 32 (frameBytes n loc - 16)) = BitVec.ofNat 64 (frameBytes n loc - 16) ↔
      frameBytes n loc < 2 ^ 31 - 2032 := by
  have hsplit := splitSum_eq_iff (BitVec.ofNat 32 (frameBytes n loc - 16))
  rw [BitVec.signExtend, toInt_size hmin hmax, BitVec.ofInt_natCast] at hsplit
  rw [hsplit]
  omega

theorem discipline_of_large (hn : n ≤ 8) (hlo : -2 ^ 31 < loc.toInt) (hhi : loc.toInt ≤ -16)
    (hl : 4 * (body.length + 18) < 2 ^ 31) (hBody : ∀ A B, Body A B → Preserves body.length A B)
    (hmin : 2048 ≤ frameBytes n loc) (hmax : frameBytes n loc < 2 ^ 31 - 2032)
    (hjump : Reaches (BitVec.ofNat 32 (4 * body.length + 36)))
    (hback : Reaches (-BitVec.ofNat 32 (4 * body.length + 44)))
    (hsp : KeepsStackPointer n loc offset body Body) : Discipline n loc offset body Body := by
  obtain ⟨save, jump, pad, epilog, last, block, back, hframe, hcode⟩ :=
    gfunc_epilog_large hn hlo hhi hmin (by omega) offset
      (offset + BitVec.ofNat 32 (4 * (5 + body.length)))
  have hlen : (save ++ (jump ++ pad)).length = 5 := by
    rw [List.length_append, hframe.save_length, hframe.jump_length]
  refine ⟨save ++ (jump ++ pad), epilog ++ [last], block ++ back, hcode, hlen,
    fun code h hload heven => ?_⟩
  obtain ⟨fuel, A, harrive, hpc, hspA, hs0A, hkeepA, hmemA⟩ :=
    hframe.enters hl hjump hback heven hload
  obtain ⟨-, hload₂, -⟩ := loaded_parts hlen hload
  have hsize := (splitSum_size_iff hmin (by omega)).mpr hmax
  have hentered : Entered n (frameBytes n loc) h A := by
    refine ⟨?_, hs0A, hkeepA, hmemA⟩
    rw [hspA, hsize]
    bv_omega
  refine ⟨fuel, A, harrive, hentered, hentered.slotsInside hlo hhi, hentered.savesRegisters hn,
    fun B hB => ?_⟩
  have hkeep := hBody A B hB
  obtain ⟨F, hrestored, hF⟩ := hframe.run_epilog B
  have htop : A.get 2 + BitVec.ofNat 64 (frameBytes n loc - 16) + 16#64 = h.get 2 := by
    rw [← (hentered.slotsInside hlo hhi).1]
    bv_omega
  rw [hsp _ _ _ code h fuel A B hcode hload heven harrive hB, hsize, htop] at hF
  have hloadB : Loaded code B.pc (epilog ++ [last]) := by
    rw [hkeep.pc, hpc]
    exact hload₂
  exact ⟨F, run_epilog hloadB hframe.epilog_straight hrestored, hF.returned hentered hkeep⟩

end

end

end tcc.riscv64
