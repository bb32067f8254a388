import Tcc.Gen.Riscv64.FrameRun

open machine.rv64

namespace tcc.riscv64

theorem bind_of_eq_some {α β : Type} {x : Option α} {a : α} (hx : x = some a) (f : α → Option β) :
    (x >>= f) = f a := by
  rw [hx]
  rfl

theorem large_header_eq {v nregs offset ind : BitVec 32} {w : Word} {ws back : List Word}
    (hw : EI 0x13 0 8 2 (16#32 - nregs * 8#32) = some w) (hws : load_size v = some ws)
    (hback : gjmp_addr (offset + 20#32) (ind + 16#32) = some back) :
    large_header v nregs offset ind = some (w :: ws ++ ER 0x33 0 2 2 5 0x20 :: back) := by
  rw [large_header, hw, hws, hback]
  rfl

theorem gfunc_epilog_eq_large {loc nregs offset ind v : BitVec 32} {s₀ s₁ s₂ r₀ r₁ r₂ r₃ nop : Word}
    {ws jump enlarge : List Word} (hv : frame_size loc nregs = v)
    (hlarge : (1#32 <<< 11).sle v = true)
    (hws : load_size v = some ws) (hwslen : ws.length = 2)
    (hr₀ : EI 0x03 3 1 2 (16#32 - 8#32 - nregs * 8#32) = some r₀)
    (hr₁ : EI 0x03 3 8 2 (16#32 - 16#32 - nregs * 8#32) = some r₁)
    (hr₂ : EI 0x13 0 2 2 16#32 = some r₂) (hr₃ : EI 0x67 0 0 1 0 = some r₃)
    (henlarge : large_header v nregs offset (ind + 28#32) = some enlarge)
    (hs₀ : EI 0x13 0 2 2 (-16#32) = some s₀)
    (hs₁ : ES 0x23 3 2 1 (16#32 - 8#32 - nregs * 8#32) = some s₁)
    (hs₂ : ES 0x23 3 2 8 (16#32 - 16#32 - nregs * 8#32) = some s₂)
    (hjump : gjmp_addr (ind + 28#32) (offset + 12#32) = some jump)
    (hnop : EI 0x13 0 0 0 0 = some nop) :
    gfunc_epilog loc nregs offset ind =
      some (if ([s₀, s₁, s₂] ++ jump).length = 5 then [s₀, s₁, s₂] ++ jump
        else [s₀, s₁, s₂] ++ jump ++ [nop],
        ws ++ [ER 0x33 0 2 2 5 0] ++ [r₀, r₁, r₂, r₃], enlarge) := by
  have hlen : (ws ++ [ER 0x33 0 2 2 5 0] ++ [r₀, r₁, r₂, r₃]).length = 7 := by
    simp [hwslen]
  have hmap : Option.map (· ++ [ER 0x33 0 2 2 5 0]) (load_size v) =
      some (ws ++ [ER 0x33 0 2 2 5 0]) := by
    rw [hws, Option.map_some]
  have h28 : ind + BitVec.ofNat 32 (4 * 7) = ind + 28#32 := rfl
  unfold gfunc_epilog
  rw [hv]
  simp only [hlarge, if_true]
  rw [bind_of_eq_some hmap, bind_of_eq_some hr₀, bind_of_eq_some hr₁, bind_of_eq_some hr₂,
    bind_of_eq_some hr₃, hlen, h28, bind_of_eq_some henlarge, bind_of_eq_some hs₀,
    bind_of_eq_some hs₁, bind_of_eq_some hs₂, bind_of_eq_some hjump, bind_of_eq_some hnop]
  rfl
/-- What a header does, small or large: the effect of the small form with an immediate
    of any size. -/
structure Entered (n size : Nat) (h A : Hart) : Prop where
  sp : A.get 2 = h.get 2 - BitVec.ofNat 64 size
  s0 : A.get 8 = h.get 2 - BitVec.ofNat 64 (8 * n)
  keep : ∀ q, q ≠ 2#5 → q ≠ 5#5 → q ≠ 8#5 → A.get q = h.get q
  mem : A.mem = saved n h

/-- What an epilogue does that leaves the stack pointer at `top`. -/
structure Restored (n : Nat) (top : BitVec 64) (B F : Hart) : Prop where
  pc : F.pc = F.get 1 &&& ~~~1#64
  sp : F.get 2 = top
  ra : F.get 1 = loadLE B.mem (top - BitVec.ofNat 64 (8 * n + 8)) 8
  s0 : F.get 8 = loadLE B.mem (top - BitVec.ofNat 64 (8 * n + 16)) 8
  keep : ∀ q, q ≠ 1#5 → q ≠ 2#5 → q ≠ 5#5 → q ≠ 8#5 → F.get q = B.get q
  mem : F.mem = B.mem

section

variable {n : Nat} {loc : BitVec 32}

theorem frame_size_eq (hn : n ≤ 8) (hlo : -2 ^ 31 < loc.toInt) (hhi : loc.toInt ≤ -16) :
    frame_size loc (BitVec.ofNat 32 n) = BitVec.ofInt 32 (frameBytes n loc) := by
  rw [BitVec.ofInt_natCast, ← frame_size_toNat hn hlo hhi, BitVec.ofNat_toNat, BitVec.setWidth_eq]

theorem frameBytes_bounds (hlo : -2 ^ 31 < loc.toInt) (hhi : loc.toInt ≤ -16) :
    16 ≤ frameBytes n loc ∧ 8 * n + (-loc.toInt).toNat ≤ frameBytes n loc ∧
      frameBytes n loc ≤ 2 ^ 31 + 8 * n + 15 ∧ frameBytes n loc % 16 = 0 := by
  unfold frameBytes
  omega

theorem sle_frame_size (hn : n ≤ 8) (hlo : -2 ^ 31 < loc.toInt) (hhi : loc.toInt ≤ -16)
    (hsize : frameBytes n loc < 2 ^ 31) :
    (1#32 <<< 11).sle (frame_size loc (BitVec.ofNat 32 n)) = decide (2048 ≤ frameBytes n loc) := by
  have hnat := frame_size_toNat hn hlo hhi
  have hone : (1#32 <<< 11).toInt = 2048 := rfl
  have hsle := BitVec.toInt_eq_toNat_of_lt (x := frame_size loc (BitVec.ofNat 32 n)) (by omega)
  rw [BitVec.sle, hsle, hnat, hone, decide_eq_decide]
  omega

theorem gfunc_epilog_small (hn : n ≤ 8) (hlo : -2 ^ 31 < loc.toInt) (hhi : loc.toInt ≤ -16)
    (hsize : frameBytes n loc < 2048) (func_sub_sp_offset ind : BitVec 32) :
    ∃ header epilog last,
      gfunc_epilog loc (BitVec.ofNat 32 n) func_sub_sp_offset ind =
        some (header, epilog ++ [last], []) ∧
      header.length = 5 ∧ epilog.length = 3 ∧ (∀ w ∈ header, Straight w) ∧
      (∀ w ∈ epilog, Straight w) ∧
      (∀ h, ∃ A, run header h = some A ∧ Entered n (frameBytes n loc) h A) ∧
      ∀ B, ∃ F, run (epilog ++ [last]) B = some F ∧
        Restored n (B.get 2 + BitVec.ofNat 64 (frameBytes n loc)) B F := by
  have hbounds := frameBytes_bounds (n := n) hlo hhi
  have hlarge := sle_frame_size hn hlo hhi (by omega)
  rw [decide_eq_false (by omega)] at hlarge
  rw [frame_size_eq hn hlo hhi] at hlarge
  have hd : (frameBytes n loc : Int) < 2048 := by omega
  obtain ⟨s₀, s₁, s₂, hs₀, hs₁, hs₂, hstraight, hsave⟩ := run_save hn (by omega) hd
  obtain ⟨s₃, hs₃, hstraight₃, hset⟩ := run_set_s0 hn (by omega) hd
  obtain ⟨r₀, r₁, r₂, r₃, hr₀, hr₁, hr₂, hr₃, hrstraight, hrestore⟩ := run_restore hn (by omega) hd
  obtain ⟨nop, hnop, hstraight₄, hpad⟩ := run_nop
  refine ⟨[s₀, s₁, s₂, s₃, nop], [r₀, r₁, r₂], r₃, ?_, rfl, rfl, ?_, hrstraight, fun h => ?_,
    fun B => ?_⟩
  · simp only [gfunc_epilog, frame_size_eq hn hlo hhi, hlarge, Bool.false_eq_true, if_false, hs₀,
      hs₁, hs₂, hs₃, hr₀, hr₁, hr₂, hr₃, hnop, Option.map_some, Option.bind_eq_bind,
      Option.bind_some]
    rfl
  · simp only [List.mem_cons, List.not_mem_nil, or_false, forall_eq_or_imp, forall_eq] at hstraight ⊢
    exact ⟨hstraight.1, hstraight.2.1, hstraight.2.2, hstraight₃, hstraight₄⟩
  · obtain ⟨h₁, hrun₁, hsp₁, hkeep₁, hmem₁⟩ := hsave h
    obtain ⟨h₂, hexec₂, hset₂⟩ := hset h₁
    obtain ⟨h₃, hexec₃, hkeep₃, hmem₃⟩ := hpad h₂
    refine ⟨h₃, ?_, ?_, ?_, fun q h2 h5 h8 => ?_, ?_⟩
    · rw [show [s₀, s₁, s₂, s₃, nop] = [s₀, s₁, s₂] ++ [s₃, nop] from rfl, run_append, hrun₁,
        Option.bind_some, run_cons, hexec₂, Option.bind_some, run_cons, hexec₃,
        Option.bind_some, run_nil]
    · rw [hkeep₃, hset₂.frame 2 (by decide), hsp₁, sub_ofNat]
    · rw [hkeep₃, hset₂.value, hsp₁, add_ofInt_ofInt, sub_ofNat]
      congr 2
      omega
    · rw [hkeep₃, hset₂.frame q h8, hkeep₁ q h2]
    · exact hmem₃.trans (hset₂.mem.trans hmem₁)
  · obtain ⟨F, hrun, hpc, hsp, hra, hs0, hkeep, hmem⟩ := hrestore B
    rw [BitVec.ofInt_natCast] at hsp
    rw [hsp] at hra hs0
    exact ⟨F, hrun, hpc, hsp, hra, hs0, fun q h1 h2 _ h8 => hkeep q h1 h2 h8, hmem⟩

/-- The code of a large frame: the header is `save ++ (jump ++ pad)`, the epilogue
    `epilog ++ [last]`, and what follows it `block ++ back`. -/
structure LargeFrame (n size : Nat) (func_sub_sp_offset ind : BitVec 32)
    (save jump pad epilog : List Word) (last : Word) (block back : List Word) : Prop where
  jump_eq : gjmp_addr (ind + 28#32) (func_sub_sp_offset + 12#32) = some jump
  back_eq : gjmp_addr (func_sub_sp_offset + 20#32) (ind + 28#32 + 16#32) = some back
  save_length : save.length = 3
  jump_length : (jump ++ pad).length = 2
  epilog_length : epilog.length = 6
  block_length : block.length = 4
  save_straight : ∀ w ∈ save, Straight w
  epilog_straight : ∀ w ∈ epilog, Straight w
  block_straight : ∀ w ∈ block, Straight w
  run_save : ∀ h, ∃ h', run save h = some h' ∧ h'.get 2 = h.get 2 + BitVec.ofInt 64 (-16) ∧
    (∀ q, q ≠ 2#5 → h'.get q = h.get q) ∧ h'.mem = saved n h
  run_block : ∀ h, ∃ h', run block h = some h' ∧
    h'.get 8 = h.get 2 + BitVec.ofInt 64 (16 - (8 * n : Nat)) ∧
    h'.get 2 = h.get 2 - splitSum (BitVec.ofNat 32 (size - 16)) ∧
    (∀ q, q ≠ 2#5 → q ≠ 5#5 → q ≠ 8#5 → h'.get q = h.get q) ∧ h'.mem = h.mem
  run_epilog : ∀ B, ∃ F, run (epilog ++ [last]) B = some F ∧
    Restored n (B.get 2 + splitSum (BitVec.ofNat 32 (size - 16)) + 16#64) B F

theorem gfunc_epilog_large (hn : n ≤ 8) (hlo : -2 ^ 31 < loc.toInt) (hhi : loc.toInt ≤ -16)
    (hmin : 2048 ≤ frameBytes n loc) (hmax : frameBytes n loc < 2 ^ 31)
    (func_sub_sp_offset ind : BitVec 32) :
    ∃ save jump pad epilog last block back,
      LargeFrame n (frameBytes n loc) func_sub_sp_offset ind save jump pad epilog last block back ∧
      gfunc_epilog loc (BitVec.ofNat 32 n) func_sub_sp_offset ind =
        some (save ++ (jump ++ pad), epilog ++ [last], block ++ back) := by
  have hlarge := sle_frame_size hn hlo hhi hmax
  rw [decide_eq_true hmin] at hlarge
  rw [frame_size_eq hn hlo hhi] at hlarge
  have hsub : BitVec.ofInt 32 (frameBytes n loc) - 16#32 = BitVec.ofNat 32 (frameBytes n loc - 16) := by
    rw [ofInt_sub_ofNat (frameBytes n loc) 16, ← BitVec.ofInt_natCast]
    congr 1
    omega
  obtain ⟨s₀, s₁, s₂, hs₀, hs₁, hs₂, hstraight, hsave⟩ :=
    run_save hn (d := 16) (by decide) (by decide)
  obtain ⟨b₀, ws, hb₀, hws, hwslen, hbstraight, hblock⟩ :=
    run_enlarge hn (BitVec.ofInt 32 (frameBytes n loc))
  obtain ⟨r₀, r₁, r₂, r₃, hr₀, hr₁, hr₂, hr₃, hrstraight, hrestore⟩ :=
    run_restore hn (d := 16) (by decide) (by decide)
  obtain ⟨ls, hls, hlslen, hlstraight, hload⟩ := run_load_size (BitVec.ofInt 32 (frameBytes n loc))
  obtain ⟨nop, hnop, -, -⟩ := run_nop
  obtain ⟨jump, hjump, hjumplen⟩ := gjmp_addr_eq_some (ind + 28#32) (func_sub_sp_offset + 12#32)
  obtain ⟨back, hback, -⟩ := gjmp_addr_eq_some (func_sub_sp_offset + 20#32) (ind + 28#32 + 16#32)
  obtain rfl : ws = ls := Option.some.inj (hws.symm.trans hls)
  rw [hsub] at hblock hload
  obtain ⟨pad, hpad, hpadlen⟩ : ∃ pad, (if ([s₀, s₁, s₂] ++ jump).length = 5 then [s₀, s₁, s₂] ++ jump
      else [s₀, s₁, s₂] ++ jump ++ [nop]) = [s₀, s₁, s₂] ++ (jump ++ pad) ∧
        (jump ++ pad).length = 2 := by
    obtain hlen | hlen := hjumplen
    · refine ⟨[nop], ?_, by simp [hlen]⟩
      rw [if_neg (by simp [hlen]), List.append_assoc]
    · refine ⟨[], ?_, by simp [hlen]⟩
      rw [if_pos (by simp [hlen]), List.append_nil]
  refine ⟨[s₀, s₁, s₂], jump, pad, ws ++ [ER 0x33 0 2 2 5 0] ++ [r₀, r₁, r₂], r₃,
    b₀ :: ws ++ [ER 0x33 0 2 2 5 0x20], back,
    ⟨hjump, hback, rfl, hpadlen, ?_, ?_, hstraight, ?_, hbstraight, hsave, hblock, fun B => ?_⟩, ?_⟩
  · simp [hwslen]
  · simp [hwslen]
  · intro w hw
    rw [List.mem_append, List.mem_append, List.mem_singleton] at hw
    obtain (hw | rfl) | hw := hw
    · exact hlstraight w hw
    · exact straight_of_set exec_add
    · exact hrstraight w hw
  · obtain ⟨h₁, hrun₁, hset₁⟩ := hload B
    have hset₂ := Sets.set_next h₁ (r := 2) (by decide) (h₁.get 2 + h₁.get 5)
    generalize hh₂ : (h₁.set 2 (h₁.get 2 + h₁.get 5)).next = h₂ at hset₂
    obtain ⟨F, hrun, hpc, hsp, hra, hs0, hkeep, hmem⟩ := hrestore h₂
    have hmem₂ : h₂.mem = B.mem := hset₂.mem.trans hset₁.mem
    rw [hset₂.value, hset₁.value, hset₁.frame 2 (by decide)] at hsp
    rw [hsp, hmem₂] at hra hs0
    refine ⟨F, ?_, hpc, hsp, hra, hs0, fun q h1 h2 h5 h8 => ?_, hmem.trans hmem₂⟩
    · rw [show ws ++ [ER 0x33 0 2 2 5 0] ++ [r₀, r₁, r₂] ++ [r₃] =
          ws ++ ER 0x33 0 2 2 5 0 :: [r₀, r₁, r₂, r₃] by simp, run_append, hrun₁, Option.bind_some,
        run_cons, exec_add, hh₂, Option.bind_some, hrun]
    · rw [hkeep q h1 h2 h8, hset₂.frame q h2, hset₁.frame q h5]
  · have h16 : BitVec.ofInt 32 16 = 16#32 := rfl
    rw [h16] at hs₀ hs₁ hs₂ hr₀ hr₁ hr₂
    have henlarge := large_header_eq hb₀ hws hback
    rw [gfunc_epilog_eq_large (frame_size_eq hn hlo hhi) hlarge hws hwslen hr₀ hr₁ hr₂ hr₃ henlarge
      hs₀ hs₁ hs₂ hjump hnop, hpad]
    simp only [List.append_assoc, List.cons_append, List.nil_append]

end

end tcc.riscv64
