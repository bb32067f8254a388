import Tcc.Gen.Riscv64.FrameDiscipline

open machine.rv64

namespace tcc.riscv64

section

variable {n : Nat} {loc offset : BitVec 32} {body : List Word} {Body : Hart → Hart → Prop}

theorem reaches_jump_iff {l : Nat} (hl : 4 * (l + 18) < 2 ^ 31) :
    Reaches (BitVec.ofNat 32 (4 * l + 36)) ↔
      4 * l + 36 < 2 ^ 20 ∨ (2 ^ 21 ≤ 4 * l + 36 ∧ 4 * l + 36 < 2 ^ 31 - 2048) := by
  rw [Reaches, toInt_jump hl]
  omega

theorem reaches_back_iff {l : Nat} (hl : 4 * (l + 18) < 2 ^ 31) :
    Reaches (-BitVec.ofNat 32 (4 * l + 44)) ↔ 4 * l + 44 ≤ 2 ^ 20 ∨ 2 ^ 21 < 4 * l + 44 := by
  rw [Reaches, toInt_back hl]
  omega

theorem frameFits_iff {l : Nat} (hl : 4 * (l + 18) < 2 ^ 31) : FrameFits n loc l ↔
    frameBytes n loc < 2048 ∨ (frameBytes n loc < 2 ^ 31 - 2032 ∧
      Reaches (BitVec.ofNat 32 (4 * l + 36)) ∧ Reaches (-BitVec.ofNat 32 (4 * l + 44))) := by
  rw [FrameFits, reaches_jump_iff hl, reaches_back_iff hl]
  omega

theorem eq_some_of_bind {α β : Type} {x : Option α} {f : α → Option β} {b : β}
    (h : (x >>= f) = some b) : ∃ a, x = some a ∧ f a = some b :=
  Option.bind_eq_some_iff.mp h

/-- A frame of 2 GiB has no immediate. -/
theorem functionCode_none (hn : n ≤ 8) (hlo : -2 ^ 31 < loc.toInt) (hhi : loc.toInt ≤ -16)
    (hsize : 2 ^ 31 ≤ frameBytes n loc) : functionCode n loc offset body = none := by
  have hbounds := frameBytes_bounds (n := n) hlo hhi
  have hnat := frame_size_toNat hn hlo hhi
  have hint : (frame_size loc (BitVec.ofNat 32 n)).toInt = (frameBytes n loc : Int) - 2 ^ 32 := by
    have hcond := BitVec.toInt_eq_toNat_cond (frame_size loc (BitVec.ofNat 32 n))
    rw [hnat] at hcond
    split at hcond <;> omega
  have hlarge : (1#32 <<< 11).sle (frame_size loc (BitVec.ofNat 32 n)) = false := by
    rw [BitVec.sle, hint, decide_eq_false_iff_not, show (1#32 <<< 11).toInt = 2048 from rfl]
    omega
  rw [Option.eq_none_iff_forall_ne_some]
  intro code hcode
  unfold functionCode gfunc_epilog at hcode
  simp only [hlarge, Bool.false_eq_true, if_false] at hcode
  obtain ⟨restore, -, hcode⟩ := eq_some_of_bind hcode
  obtain ⟨ld_ra, -, hcode⟩ := eq_some_of_bind hcode
  obtain ⟨ld_s0, -, hcode⟩ := eq_some_of_bind hcode
  obtain ⟨add_sp, hadd, -⟩ := eq_some_of_bind hcode
  rw [EI, Option.ite_none_right_eq_some, imm12_iff, hint] at hadd
  omega

theorem Discipline.enters (hdiscipline : Discipline n loc offset body Body)
    {header epilog enlarge : List Word}
    (hcode : functionCode n loc offset body = some (header, epilog, enlarge)) {code : Code} {h : Hart}
    (hload : Loaded code h.pc (header ++ (body ++ (epilog ++ enlarge))))
    (heven : h.pc.getLsbD 0 = false) : ∃ fuel A, runTo code (h.pc + 20#64) fuel h = some A ∧
      Entered n (frameBytes n loc) h A ∧
      ∀ B, Body A B → ∃ F, steps code epilog.length B = some F ∧ Returned h B F := by
  obtain ⟨header', epilog', enlarge', hcode', -, hruns⟩ := hdiscipline
  rw [hcode, Option.some.injEq, Prod.mk.injEq, Prod.mk.injEq] at hcode'
  obtain ⟨rfl, rfl, rfl⟩ := hcode'
  obtain ⟨fuel, A, hrun, hentered, -, -, hreturns⟩ := hruns code h hload heven
  exact ⟨fuel, A, hrun, hentered, hreturns⟩

section

variable {save jump pad epilog block back : List Word} {last : Word}

theorem LargeFrame.jump_near (hl : 4 * (body.length + 18) < 2 ^ 31)
    (hframe : LargeFrame n (frameBytes n loc) offset
      (offset + BitVec.ofNat 32 (4 * (5 + body.length))) save jump pad epilog last block back)
    (hmax : 4 * body.length + 36 < 2 ^ 21) :
    jump = [jal (BitVec.ofNat 32 (4 * body.length + 36))] := by
  have hdisp := jump_displacement offset body.length
  have hnear := @gjmp_addr_near (offset + BitVec.ofNat 32 (4 * (5 + body.length)) + 28#32)
    (offset + 12#32) (by rw [hdisp]; exact even_jump _) (by rw [hdisp, toInt_jump hl]; omega)
    (by rw [hdisp, toInt_jump hl]; omega)
  rw [hdisp] at hnear
  exact Option.some.inj (hframe.jump_eq.symm.trans hnear)

theorem LargeFrame.back_near (hl : 4 * (body.length + 18) < 2 ^ 31)
    (hframe : LargeFrame n (frameBytes n loc) offset
      (offset + BitVec.ofNat 32 (4 * (5 + body.length))) save jump pad epilog last block back)
    (hmax : 4 * body.length + 44 ≤ 2 ^ 21) :
    back = [jal (-BitVec.ofNat 32 (4 * body.length + 44))] := by
  have hdisp := back_displacement offset body.length
  have hnear := @gjmp_addr_near (offset + 20#32)
    (offset + BitVec.ofNat 32 (4 * (5 + body.length)) + 28#32 + 16#32)
    (by rw [hdisp]; exact even_back _) (by rw [hdisp, toInt_back hl]; omega)
    (by rw [hdisp, toInt_back hl]; omega)
  rw [hdisp] at hnear
  exact Option.some.inj (hframe.back_eq.symm.trans hnear)

theorem LargeFrame.code_length
    (hframe : LargeFrame n (frameBytes n loc) offset
      (offset + BitVec.ofNat 32 (4 * (5 + body.length))) save jump pad epilog last block back) :
    (save ++ (jump ++ pad) ++ (body ++ ((epilog ++ [last]) ++ (block ++ back)))).length ≤
      body.length + 18 := by
  obtain ⟨ws, hws, hlen⟩ := gjmp_addr_eq_some (offset + 20#32)
    (offset + BitVec.ofNat 32 (4 * (5 + body.length)) + 28#32 + 16#32)
  obtain rfl : back = ws := Option.some.inj (hframe.back_eq.symm.trans hws)
  have hjump := hframe.jump_length
  rw [List.length_append] at hjump
  simp only [List.length_append, hframe.save_length, hframe.epilog_length, hframe.block_length,
    List.length_singleton]
  omega

/-- A jump forward of 1 MiB up to 2 MiB goes back, past the start of the function or to
    one of its first three instructions. -/
theorem header_loops (hl : 4 * (body.length + 18) < 2 ^ 31)
    (hframe : LargeFrame n (frameBytes n loc) offset
      (offset + BitVec.ofNat 32 (4 * (5 + body.length))) save jump pad epilog last block back)
    (hmin : 2 ^ 20 ≤ 4 * body.length + 36) (hmax : 4 * body.length + 36 < 2 ^ 21) {h : Hart}
    (hpc : h.pc = 0#64) (fuel : Nat) :
    runTo (place (save ++ (jump ++ pad) ++ (body ++ ((epilog ++ [last]) ++ (block ++ back))))) 20#64
      fuel h = none := by
  have hlength := hframe.code_length
  generalize hws : save ++ (jump ++ pad) ++ (body ++ ((epilog ++ [last]) ++ (block ++ back))) = ws
    at hlength
  have hload : Loaded (place ws) 0#64 ws := place_loaded (by omega)
  nth_rewrite 2 [← hws] at hload
  obtain ⟨hheader, -⟩ := Loaded.append hload
  obtain ⟨hsave, hjump⟩ := Loaded.append hheader
  rw [hframe.save_length, hframe.jump_near hl hmax] at hjump
  have hoffset : jalOffset (BitVec.ofNat 32 (4 * body.length + 36)) =
      BitVec.ofInt 64 (4 * body.length + 36 - 2 ^ 21) := by
    refine jalOffset_of_bmod (even_jump _) ?_
    rw [BitVec.toNat_ofNat, Int.bmod]
    split <;> omega
  apply @runTo_none _ _ (fun h => (∃ i < 4, h.pc = BitVec.ofNat 64 (4 * i)) ∨
    (h.pc ≠ 20#64 ∧ place ws h.pc = none))
  · rintro h (⟨i, hi, hpc⟩ | ⟨hpc, hnone⟩)
    · refine ⟨by rw [hpc]; bv_omega, fun h' hstep => ?_⟩
      by_cases hi3 : i = 3
      · have hfetch := hjump 0 _ rfl
        rw [hi3] at hpc
        rw [Nat.mul_zero, BitVec.add_zero, BitVec.zero_add, ← hpc] at hfetch
        rw [step_of_fetch hfetch, exec_jal, Option.some.injEq] at hstep
        have hpc' : h'.pc = BitVec.ofInt 64 (4 * body.length + 48 - 2 ^ 21) := by
          rw [← hstep]
          change h.pc + jalOffset _ = _
          rw [hoffset, hpc, ← BitVec.ofInt_natCast, ← BitVec.ofInt_add]
          congr 1
          omega
        by_cases hback : 2 ^ 21 ≤ 4 * body.length + 48
        · refine Or.inl ⟨body.length + 12 - 2 ^ 19, by omega, ?_⟩
          rw [hpc', ← BitVec.ofInt_natCast]
          congr 1
          omega
        · have hnat : h'.pc.toNat = 2 ^ 64 + 4 * body.length + 48 - 2 ^ 21 := by
            rw [hpc', BitVec.toNat_ofInt]
            omega
          refine Or.inr ⟨fun h20 => ?_, place_eq_none (by omega)⟩
          rw [h20, BitVec.toNat_ofNat] at hnat
          omega
      · have hlt : i < save.length := by
          rw [hframe.save_length]
          omega
        have hfetch := hsave i save[i] (List.getElem?_eq_getElem hlt)
        rw [BitVec.zero_add, ← hpc] at hfetch
        rw [step_of_fetch hfetch] at hstep
        refine Or.inl ⟨i + 1, by omega, ?_⟩
        rw [hframe.save_straight _ (List.getElem_mem hlt) h h' hstep, hpc, Nat.mul_succ,
          BitVec.ofNat_add]
    · refine ⟨hpc, fun h' hstep => ?_⟩
      rw [step, hnone] at hstep
      cases hstep
  · exact Or.inl ⟨0, by decide, hpc⟩

/-- A jump forward of nearly 2 GiB or more goes back by as much as it lacks to 4 GiB. -/
theorem header_leaves (hl : 4 * (body.length + 18) < 2 ^ 31)
    (hframe : LargeFrame n (frameBytes n loc) offset
      (offset + BitVec.ofNat 32 (4 * (5 + body.length))) save jump pad epilog last block back)
    (hmin : 2 ^ 31 - 2048 ≤ 4 * body.length + 36) {h : Hart} (hpc : h.pc = 0#64) (fuel : Nat) :
    runTo (place (save ++ (jump ++ pad) ++ (body ++ ((epilog ++ [last]) ++ (block ++ back))))) 20#64
      fuel h = none := by
  have hlength := hframe.code_length
  generalize hws : save ++ (jump ++ pad) ++ (body ++ ((epilog ++ [last]) ++ (block ++ back))) = ws
    at hlength
  have hload : Loaded (place ws) 0#64 ws := place_loaded (by omega)
  nth_rewrite 2 [← hws] at hload
  obtain ⟨hheader, -⟩ := Loaded.append hload
  rw [← hpc] at hheader
  obtain ⟨h₁, hleads, hpc₁, hjump, -⟩ := hframe.saves hheader
  rw [hpc, BitVec.zero_add] at hleads hpc₁
  have hdisp := jump_displacement offset body.length
  obtain ⟨hi, lo, hgjmp, hstraight, hexec⟩ := @gjmp_addr_far
    (offset + BitVec.ofNat 32 (4 * (5 + body.length)) + 28#32) (offset + 12#32)
    (by rw [hdisp, Near, toInt_jump hl]; omega)
  obtain rfl : jump = [hi, lo] := Option.some.inj (hframe.jump_eq.symm.trans hgjmp)
  obtain ⟨h₂, hexec₂, h₃, hexec₃, hpc₃, -, -⟩ := hexec h₁
  obtain ⟨hstep₂, hload₂⟩ := step_block hjump hstraight hexec₂
  have hpc₂ := hstraight h₁ h₂ hexec₂
  have hfetch := hload₂ 0 _ rfl
  rw [Nat.mul_zero, BitVec.add_zero] at hfetch
  have hstep₃ := (step_of_fetch hfetch).trans hexec₃
  have hleads₃ := (hleads.trans (Leads.step (by rw [hpc₁]; decide) hstep₂)).trans
    (Leads.step (by rw [hpc₂, hpc₁]; decide) hstep₃)
  rw [hdisp, splitSum_of_carry (by rw [toInt_jump hl]; omega), toInt_jump hl, hpc₁] at hpc₃
  have hsum : 12#64 + BitVec.ofInt 64 (4 * body.length + 36 - 2 ^ 32) =
      BitVec.ofInt 64 (4 * body.length + 48 - 2 ^ 32) := by
    rw [← BitVec.ofInt_natCast 64 12, ← BitVec.ofInt_add]
    congr 1
    omega
  have hnat : (BitVec.ofInt 64 (4 * body.length + 48 - 2 ^ 32)).toNat =
      2 ^ 64 + 4 * body.length + 48 - 2 ^ 32 := by
    rw [BitVec.toNat_ofInt]
    omega
  rw [hsum, and_not_one_of_even] at hpc₃
  · refine hleads₃.stuck (fun h20 => ?_) (place_eq_none ?_) fuel
    · rw [hpc₃] at h20
      rw [h20, BitVec.toNat_ofNat] at hnat
      omega
    · rw [hpc₃, hnat]
      omega
  · rw [BitVec.getLsbD, Nat.testBit_zero, hnat, decide_eq_false_iff_not]
    omega

/-- A jump back that is just too far for a `jal` goes forward. -/
theorem block_leaves (hl : 4 * (body.length + 18) < 2 ^ 31)
    (hframe : LargeFrame n (frameBytes n loc) offset
      (offset + BitVec.ofNat 32 (4 * (5 + body.length))) save jump pad epilog last block back)
    (hreach : Reaches (BitVec.ofNat 32 (4 * body.length + 36)))
    (hback : ¬ Reaches (-BitVec.ofNat 32 (4 * body.length + 44))) {h : Hart} (hpc : h.pc = 0#64)
    (fuel : Nat) :
    runTo (place (save ++ (jump ++ pad) ++ (body ++ ((epilog ++ [last]) ++ (block ++ back))))) 20#64
      fuel h = none := by
  rw [reaches_back_iff hl] at hback
  have hjump := (reaches_jump_iff hl).mp hreach
  have hlength := hframe.code_length
  generalize hws : save ++ (jump ++ pad) ++ (body ++ ((epilog ++ [last]) ++ (block ++ back))) = ws
    at hlength
  have hload : Loaded (place ws) 0#64 ws := place_loaded (by omega)
  nth_rewrite 2 [← hws] at hload
  rw [← hpc] at hload
  have hheaderlen : (save ++ (jump ++ pad)).length = 5 := by
    rw [List.length_append, hframe.save_length, hframe.jump_length]
  obtain ⟨hload₁, -, hload₃⟩ := loaded_parts hheaderlen hload
  have hepiloglen : (epilog ++ [last]).length = 7 := by
    rw [List.length_append, hframe.epilog_length, List.length_singleton]
  rw [hepiloglen] at hload₃
  obtain ⟨h₃, hleads, hpc₃, hloadback, -⟩ :=
    hframe.enlarges hl hreach (by rw [hpc]; rfl) hload₁ hload₃
  rw [hpc, BitVec.zero_add] at hleads hpc₃
  rw [hframe.back_near hl (by omega)] at hloadback
  have hfetch := hloadback 0 _ rfl
  rw [Nat.mul_zero, BitVec.add_zero] at hfetch
  have hstep := (step_of_fetch hfetch).trans (exec_jal _ h₃)
  have hoffset : jalOffset (-BitVec.ofNat 32 (4 * body.length + 44)) =
      BitVec.ofInt 64 (2 ^ 21 - (4 * body.length + 44 : Nat)) := by
    refine jalOffset_of_bmod (even_back _) ?_
    rw [BitVec.toNat_neg, BitVec.toNat_ofNat, Int.bmod]
    split <;> omega
  have hleads₄ := hleads.trans (Leads.step (by rw [hpc₃]; bv_omega) hstep)
  have hnat : (h₃.pc + jalOffset (-BitVec.ofNat 32 (4 * body.length + 44))).toNat =
      2 ^ 21 + 20 := by
    rw [hoffset, hpc₃, ← BitVec.ofInt_natCast, ← BitVec.ofInt_add, BitVec.toNat_ofInt]
    omega
  refine hleads₄.stuck (fun h20 => ?_) (place_eq_none ?_) fuel
  · have h20' : h₃.pc + jalOffset (-BitVec.ofNat 32 (4 * body.length + 44)) = 20#64 := h20
    rw [h20', BitVec.toNat_ofNat] at hnat
    omega
  · change _ ≤ (h₃.pc + jalOffset (-BitVec.ofNat 32 (4 * body.length + 44))).toNat
    omega

end

theorem fits_of_discipline (hn : n ≤ 8) (hlo : -2 ^ 31 < loc.toInt) (hhi : loc.toInt ≤ -16)
    (hl : 4 * (body.length + 18) < 2 ^ 31) (hdiscipline : Discipline n loc offset body Body) :
    FrameFits n loc body.length := by
  rw [frameFits_iff hl]
  have hsize : frameBytes n loc < 2 ^ 31 := by
    by_contra hlarge
    obtain ⟨header, epilog, enlarge, hcode, -⟩ := hdiscipline
    rw [functionCode_none hn hlo hhi (by omega)] at hcode
    cases hcode
  by_cases hsmall : frameBytes n loc < 2048
  · exact Or.inl hsmall
  have hmin : 2048 ≤ frameBytes n loc := by omega
  obtain ⟨save, jump, pad, epilog, last, block, back, hframe, hcode⟩ :=
    gfunc_epilog_large hn hlo hhi hmin hsize offset
      (offset + BitVec.ofNat 32 (4 * (5 + body.length)))
  have hlength := hframe.code_length
  have hload := @place_loaded (save ++ (jump ++ pad) ++ (body ++ ((epilog ++ [last]) ++
    (block ++ back)))) (by omega)
  obtain ⟨h, hpc⟩ : ∃ h : Hart, h.pc = 0#64 := ⟨⟨fun _ => 0, fun _ => 0, 0#64⟩, rfl⟩
  have heven : h.pc.getLsbD 0 = false := by
    rw [hpc]
    rfl
  rw [← hpc] at hload
  obtain ⟨fuel, A, hrun, hentered, -⟩ := hdiscipline.enters hcode hload heven
  have hrun₀ := hrun
  rw [hpc, BitVec.zero_add] at hrun₀
  have hjump : Reaches (BitVec.ofNat 32 (4 * body.length + 36)) := by
    by_contra hreach
    rw [reaches_jump_iff hl] at hreach
    by_cases hnear : 4 * body.length + 36 < 2 ^ 21
    · cases hrun₀.symm.trans (header_loops hl hframe (by omega) hnear hpc fuel)
    · cases hrun₀.symm.trans (header_leaves hl hframe (by omega) hpc fuel)
  have hback : Reaches (-BitVec.ofNat 32 (4 * body.length + 44)) := by
    by_contra hreach
    cases hrun₀.symm.trans (block_leaves hl hframe hjump hreach hpc fuel)
  refine Or.inr ⟨?_, hjump, hback⟩
  obtain ⟨fuel', A', hrun', -, hsp, -⟩ := hframe.enters hl hjump hback heven hload
  obtain rfl := runTo_unique hrun hrun'
  rw [hentered.sp] at hsp
  rw [← splitSum_size_iff hmin hsize]
  bv_omega

/-- The epilogue of a frame that fits releases as many bytes as the header has taken. -/
theorem epilog_sp (hn : n ≤ 8) (hlo : -2 ^ 31 < loc.toInt) (hhi : loc.toInt ≤ -16)
    (hfits : FrameFits n loc body.length)
    {header epilog enlarge : List Word}
    (hcode : functionCode n loc offset body = some (header, epilog, enlarge)) {code : Code}
    {B F : Hart} (hload : Loaded code B.pc epilog) (hrun : steps code epilog.length B = some F) :
    F.get 2 = B.get 2 + BitVec.ofNat 64 (frameBytes n loc) := by
  by_cases hsmall : frameBytes n loc < 2048
  · obtain ⟨_, epilog', last, hcode', -, -, -, hstraight, -, hrestore⟩ :=
      gfunc_epilog_small hn hlo hhi hsmall offset (offset + BitVec.ofNat 32 (4 * (5 + body.length)))
    obtain ⟨-, rfl, -⟩ : _ ∧ _ ∧ _ := by
      simpa only [functionCode, hcode', Option.some.injEq, Prod.mk.injEq] using hcode
    obtain ⟨F', hrestored, hF⟩ := hrestore B
    rw [run_epilog hload hstraight hrestored, Option.some.injEq] at hrun
    rw [← hrun, hF.sp]
  · rw [FrameFits] at hfits
    have hmax : frameBytes n loc < 2 ^ 31 - 2032 := by omega
    obtain ⟨save, jump, pad, epilog', last, block, back, hframe, hcode'⟩ :=
      gfunc_epilog_large hn hlo hhi (by omega) (by omega) offset
        (offset + BitVec.ofNat 32 (4 * (5 + body.length)))
    obtain ⟨-, rfl, -⟩ : _ ∧ _ ∧ _ := by
      simpa only [functionCode, hcode', Option.some.injEq, Prod.mk.injEq] using hcode
    obtain ⟨F', hrestored, hF⟩ := hframe.run_epilog B
    rw [run_epilog hload hframe.epilog_straight hrestored, Option.some.injEq] at hrun
    rw [← hrun, hF.sp, (splitSum_size_iff (by omega) (by omega)).mpr hmax]
    bv_omega

theorem keeps_of_discipline (hn : n ≤ 8) (hlo : -2 ^ 31 < loc.toInt) (hhi : loc.toInt ≤ -16)
    (hl : 4 * (body.length + 18) < 2 ^ 31) (hBody : ∀ A B, Body A B → Preserves body.length A B)
    (hdiscipline : Discipline n loc offset body Body) :
    KeepsStackPointer n loc offset body Body := by
  have hfits := fits_of_discipline hn hlo hhi hl hdiscipline
  intro header epilog enlarge code h fuel A B hcode hload heven hrun hB
  have hheader : header.length = 5 := by
    obtain ⟨header', epilog', enlarge', hcode', hlen, -⟩ := hdiscipline
    rw [hcode, Option.some.injEq, Prod.mk.injEq] at hcode'
    rw [hcode'.1, hlen]
  obtain ⟨fuel', A', hrun', hentered, hreturns⟩ := hdiscipline.enters hcode hload heven
  obtain rfl := runTo_unique hrun hrun'
  obtain ⟨F, hsteps, hreturned⟩ := hreturns B hB
  have hloadB : Loaded code B.pc epilog := by
    rw [(hBody A B hB).pc, runTo_pc hrun]
    exact (loaded_parts hheader hload).2.1
  have hspF := epilog_sp hn hlo hhi hfits hcode hloadB hsteps
  rw [hreturned.sp, ← (hentered.slotsInside hlo hhi).1] at hspF
  exact ((BitVec.add_left_inj _).mp hspF).symm

/-- The header, the epilogue and the jumps between them are right for exactly these
    functions. -/
theorem discipline_iff (hn : n ≤ 8) (hlo : -2 ^ 31 < loc.toInt) (hhi : loc.toInt ≤ -16)
    (hl : 4 * (body.length + 18) < 2 ^ 31) (hBody : ∀ A B, Body A B → Preserves body.length A B) :
    Discipline n loc offset body Body ↔
      FrameFits n loc body.length ∧ KeepsStackPointer n loc offset body Body := by
  constructor
  · intro hdiscipline
    exact ⟨fits_of_discipline hn hlo hhi hl hdiscipline,
      keeps_of_discipline hn hlo hhi hl hBody hdiscipline⟩
  · rintro ⟨hfits, hsp⟩
    obtain hsmall | ⟨hmax, hjump, hback⟩ := (frameFits_iff hl).mp hfits
    · exact discipline_of_small hn hlo hhi hBody hsmall hsp
    · by_cases hsmall : frameBytes n loc < 2048
      · exact discipline_of_small hn hlo hhi hBody hsmall hsp
      · exact discipline_of_large hn hlo hhi hl hBody (by omega) hmax hjump hback hsp

end

/-- A body that does nothing. -/
def Nops (length : Nat) (A B : Hart) : Prop := B = { A with pc := A.pc + BitVec.ofNat 64 (4 * length) }

theorem Nops.preserves {length : Nat} {A B : Hart} (h : Nops length A B) : Preserves length A B := by
  subst h
  exact ⟨rfl, rfl, fun _ _ => rfl⟩

theorem Nops.sp {length : Nat} {A B : Hart} (h : Nops length A B) : B.get 2 = A.get 2 := by
  subst h
  rfl

theorem nops_discipline : (∀ A B, Nops 1 A B → Preserves 1 A B) ∧
    Discipline 2 (-48#32) 0 [0x13#32] (Nops 1) :=
  ⟨fun _ _ h => h.preserves,
    (discipline_iff (by decide) (by decide) (by decide) (by decide) fun _ _ h => h.preserves).mpr
      ⟨Or.inl (by decide), fun _ _ _ _ _ _ _ _ _ _ _ _ hB => hB.sp⟩⟩

theorem undisciplined_of_length {body : List Word} (hlength : body.length = 2 ^ 18)
    {Body : Hart → Hart → Prop} : ¬ Discipline 0 (-4096#32) 0 body Body := by
  intro hdiscipline
  have hfits := fits_of_discipline (by decide) (by decide) (by decide) (by rw [hlength]; decide)
    hdiscipline
  have hsize : frameBytes 0 (-4096#32) = 4096 := by decide
  rw [FrameFits, hlength, hsize] at hfits
  omega

/-- A function of a little more than 1 MiB with 4 KiB of locals: its header jumps back
    instead of to the code after the epilogue. -/
theorem far_body_undisciplined : (∀ A B, Nops (2 ^ 18) A B → Preserves (2 ^ 18) A B) ∧
    (∀ A B, Nops (2 ^ 18) A B → B.get 2 = A.get 2) ∧
    ¬ Discipline 0 (-4096#32) 0 (List.replicate (2 ^ 18) 0x13#32) (Nops (2 ^ 18)) :=
  ⟨fun _ _ h => h.preserves, fun _ _ h => h.sp,
    undisciplined_of_length List.length_replicate⟩

end tcc.riscv64
