import Tcc.Gen.Riscv64.FrameCode

open machine.rv64

namespace tcc.riscv64

/-- The size of a frame: the locals and the saved variadic registers, rounded up. -/
def frameBytes (n : Nat) (loc : BitVec 32) : Nat := ((-loc.toInt).toNat + 8 * n + 15) / 16 * 16

theorem and_neg_sixteen_toNat (x : BitVec 32) : (x &&& -16#32).toNat = x.toNat / 16 * 16 := by
  have hmask : x &&& -16#32 = x >>> 4 <<< 4 := by
    ext i hi
    interval_cases i <;> simp
  have := x.isLt
  rw [hmask, BitVec.toNat_shiftLeft, BitVec.toNat_ushiftRight, Nat.shiftRight_eq_div_pow,
    Nat.shiftLeft_eq]
  omega

theorem frame_size_toNat {n : Nat} {loc : BitVec 32} (hn : n ≤ 8) (hlo : -2 ^ 31 < loc.toInt)
    (hhi : loc.toInt ≤ -16) : (frame_size loc (BitVec.ofNat 32 n)).toNat = frameBytes n loc := by
  have hsum : (-(loc - BitVec.ofNat 32 n * 8#32) + 15#32).toNat =
      (-loc.toInt).toNat + 8 * n + 15 := by
    rw [BitVec.toInt_eq_toNat_cond] at *
    have := loc.isLt
    simp only [BitVec.toNat_add, BitVec.toNat_neg, BitVec.toNat_sub, BitVec.toNat_mul,
      BitVec.toNat_ofNat]
    split at hhi <;> omega
  rw [frame_size, and_neg_sixteen_toNat, hsum, frameBytes]

theorem imm12_ofInt {z : Int} (hlo : -2048 ≤ z) (hhi : z < 2048) : imm12 (BitVec.ofInt 32 z) := by
  rw [imm12_iff, BitVec.toInt_ofInt, Int.bmod_eq_of_le_mul_two (by omega) (by omega)]
  exact ⟨hlo, hhi⟩

theorem signExtend_ofInt {z : Int} (hlo : -2048 ≤ z) (hhi : z < 2048) :
    (BitVec.ofInt 32 z).signExtend 64 = BitVec.ofInt 64 z := by
  rw [BitVec.signExtend, BitVec.toInt_ofInt, Int.bmod_eq_of_le_mul_two (by omega) (by omega)]

theorem ofInt_sub_ofNat {w : Nat} (z : Int) (k : Nat) :
    BitVec.ofInt w z - BitVec.ofNat w k = BitVec.ofInt w (z - k) := by
  rw [Int.sub_eq_add_neg, BitVec.ofInt_add, BitVec.ofInt_neg, BitVec.ofInt_natCast,
    BitVec.sub_eq_add_neg]

theorem sub_ofNat (x : BitVec 64) (k : Nat) : x - BitVec.ofNat 64 k = x + BitVec.ofInt 64 (-k) := by
  rw [BitVec.ofInt_neg, BitVec.ofInt_natCast, BitVec.sub_eq_add_neg]

theorem add_ofInt_ofInt (x : BitVec 64) (y z : Int) :
    x + BitVec.ofInt 64 y + BitVec.ofInt 64 z = x + BitVec.ofInt 64 (y + z) := by
  rw [BitVec.add_assoc, ← BitVec.ofInt_add]

/-- The memory once the return address and the caller's frame pointer are saved. -/
def saved (n : Nat) (h : Hart) : BitVec 64 → BitVec 8 :=
  storeLE (storeLE h.mem (h.get 2 - BitVec.ofNat 64 (8 * n + 8)) (h.get 1) 8)
    (h.get 2 - BitVec.ofNat 64 (8 * n + 16)) (h.get 8) 8

theorem saved_imm (d : Int) (k n : Nat) :
    BitVec.ofInt 32 d - BitVec.ofNat 32 k - BitVec.ofNat 32 n * 8#32 =
      BitVec.ofInt 32 (d - k - (8 * n : Nat)) := by
  rw [ofInt_sub_ofNat, ← ofInt_sub_ofNat (d - k), Nat.mul_comm, BitVec.ofNat_mul]

/-- The first three instructions of a header, which takes `d` bytes. -/
theorem run_save {n : Nat} {d : Int} (hn : n ≤ 8) (hlo : 16 ≤ d) (hhi : d < 2048) :
    ∃ w₀ w₁ w₂, EI 0x13 0 2 2 (-BitVec.ofInt 32 d) = some w₀ ∧
      ES 0x23 3 2 1 (BitVec.ofInt 32 d - 8#32 - BitVec.ofNat 32 n * 8#32) = some w₁ ∧
      ES 0x23 3 2 8 (BitVec.ofInt 32 d - 16#32 - BitVec.ofNat 32 n * 8#32) = some w₂ ∧
      (∀ w ∈ [w₀, w₁, w₂], Straight w) ∧ ∀ h, ∃ h', run [w₀, w₁, w₂] h = some h' ∧
        h'.get 2 = h.get 2 + BitVec.ofInt 64 (-d) ∧ (∀ q, q ≠ 2#5 → h'.get q = h.get q) ∧
        h'.mem = saved n h := by
  have himm (k : Nat) := saved_imm d k n
  have hneg : -BitVec.ofInt 32 d = BitVec.ofInt 32 (-d) := BitVec.ofInt_neg.symm
  obtain ⟨w₀, hw₀⟩ : ∃ w, EI 0x13 0 2 2 (BitVec.ofInt 32 (-d)) = some w :=
    ⟨_, if_pos (imm12_ofInt (by omega) (by omega))⟩
  obtain ⟨w₁, hw₁⟩ : ∃ w, ES 0x23 3 2 1 (BitVec.ofInt 32 (d - 8 - (8 * n : Nat))) = some w :=
    ⟨_, if_pos (imm12_ofInt (by omega) (by omega))⟩
  obtain ⟨w₂, hw₂⟩ : ∃ w, ES 0x23 3 2 8 (BitVec.ofInt 32 (d - 16 - (8 * n : Nat))) = some w :=
    ⟨_, if_pos (imm12_ofInt (by omega) (by omega))⟩
  refine ⟨w₀, w₁, w₂, by rw [hneg, hw₀], by rw [himm 8]; exact hw₁, by rw [himm 16]; exact hw₂, ?_,
    fun h => ?_⟩
  · simp only [List.mem_cons, List.not_mem_nil, or_false, forall_eq_or_imp, forall_eq]
    exact ⟨straight_of_set (exec_addi hw₀), straight_sd hw₁, straight_sd hw₂⟩
  · obtain ⟨h₁, hexec₁, hset⟩ := step_addi hw₀ (by decide) h
    obtain ⟨h₂, hexec₂, hkeep₂, hmem₂⟩ := step_sd hw₁ h₁
    obtain ⟨h₃, hexec₃, hkeep₃, hmem₃⟩ := step_sd hw₂ h₂
    rw [signExtend_ofInt (by omega) (by omega)] at hset hmem₂ hmem₃
    have hkeep (q : BitVec 5) : h₃.get q = h₁.get q := (hkeep₃ q).trans (hkeep₂ q)
    have haddr (k : Nat) : h₁.get 2 + BitVec.ofInt 64 (d - k - (8 * n : Nat)) =
        h.get 2 - BitVec.ofNat 64 (8 * n + k) := by
      rw [hset.value, add_ofInt_ofInt, sub_ofNat]
      congr 2
      omega
    refine ⟨h₃, ?_, ?_, fun q hq => ?_, ?_⟩
    · rw [run_cons, hexec₁, Option.bind_some, run_cons, hexec₂, Option.bind_some, run_cons, hexec₃,
        Option.bind_some, run_nil]
    · rw [hkeep, hset.value]
    · rw [hkeep, hset.frame q hq]
    · rw [hmem₃, hkeep₂, hkeep₂, hmem₂, hset.frame 1 (by decide), hset.frame 8 (by decide), hset.mem,
        saved, ← haddr, ← haddr]
      rfl

/-- The last four instructions of an epilogue, which release `d` bytes and return. -/
theorem run_restore {n : Nat} {d : Int} (hn : n ≤ 8) (hlo : 16 ≤ d) (hhi : d < 2048) :
    ∃ w₀ w₁ w₂ w₃, EI 0x03 3 1 2 (BitVec.ofInt 32 d - 8#32 - BitVec.ofNat 32 n * 8#32) = some w₀ ∧
      EI 0x03 3 8 2 (BitVec.ofInt 32 d - 16#32 - BitVec.ofNat 32 n * 8#32) = some w₁ ∧
      EI 0x13 0 2 2 (BitVec.ofInt 32 d) = some w₂ ∧ EI 0x67 0 0 1 0 = some w₃ ∧
      (∀ w ∈ [w₀, w₁, w₂], Straight w) ∧ ∀ h, ∃ h', run [w₀, w₁, w₂, w₃] h = some h' ∧
        h'.pc = h'.get 1 &&& ~~~1#64 ∧ h'.get 2 = h.get 2 + BitVec.ofInt 64 d ∧
        h'.get 1 = loadLE h.mem (h'.get 2 - BitVec.ofNat 64 (8 * n + 8)) 8 ∧
        h'.get 8 = loadLE h.mem (h'.get 2 - BitVec.ofNat 64 (8 * n + 16)) 8 ∧
        (∀ q, q ≠ 1#5 → q ≠ 2#5 → q ≠ 8#5 → h'.get q = h.get q) ∧ h'.mem = h.mem := by
  have himm (k : Nat) := saved_imm d k n
  obtain ⟨w₀, hw₀⟩ : ∃ w, EI 0x03 3 1 2 (BitVec.ofInt 32 (d - 8 - (8 * n : Nat))) = some w :=
    ⟨_, if_pos (imm12_ofInt (by omega) (by omega))⟩
  obtain ⟨w₁, hw₁⟩ : ∃ w, EI 0x03 3 8 2 (BitVec.ofInt 32 (d - 16 - (8 * n : Nat))) = some w :=
    ⟨_, if_pos (imm12_ofInt (by omega) (by omega))⟩
  obtain ⟨w₂, hw₂⟩ : ∃ w, EI 0x13 0 2 2 (BitVec.ofInt 32 d) = some w :=
    ⟨_, if_pos (imm12_ofInt (by omega) (by omega))⟩
  obtain ⟨w₃, hw₃⟩ : ∃ w, EI 0x67 0 0 1 0 = some w := ⟨_, if_pos rfl⟩
  refine ⟨w₀, w₁, w₂, w₃, by rw [himm 8]; exact hw₀, by rw [himm 16]; exact hw₁, hw₂, hw₃, ?_,
    fun h => ?_⟩
  · simp only [List.mem_cons, List.not_mem_nil, or_false, forall_eq_or_imp, forall_eq]
    exact ⟨straight_of_set (exec_ld hw₀), straight_of_set (exec_ld hw₁), straight_of_set (exec_addi hw₂)⟩
  · obtain ⟨h₁, hexec₁, hset₁⟩ := step_ld hw₀ (by decide) h
    obtain ⟨h₂, hexec₂, hset₂⟩ := step_ld hw₁ (by decide) h₁
    obtain ⟨h₃, hexec₃, hset₃⟩ := step_addi hw₂ (by decide) h₂
    rw [signExtend_ofInt (by omega) (by omega)] at hset₁ hset₂ hset₃
    have hsp : h₂.get 2 = h.get 2 := by
      rw [hset₂.frame 2 (by decide), hset₁.frame 2 (by decide)]
    have haddr (k : Nat) : h.get 2 + BitVec.ofInt 64 (d - k - (8 * n : Nat)) =
        h₃.get 2 - BitVec.ofNat 64 (8 * n + k) := by
      rw [hset₃.value, hsp, sub_ofNat, add_ofInt_ofInt]
      congr 2
      omega
    have hra : h₃.get 1 = loadLE h.mem (h₃.get 2 - BitVec.ofNat 64 (8 * n + 8)) 8 := by
      rw [hset₃.frame 1 (by decide), hset₂.frame 1 (by decide), hset₁.value, ← haddr]
      rfl
    have hs0 : h₃.get 8 = loadLE h.mem (h₃.get 2 - BitVec.ofNat 64 (8 * n + 16)) 8 := by
      rw [hset₃.frame 8 (by decide), hset₂.value, hset₁.frame 2 (by decide), hset₁.mem, ← haddr]
      rfl
    have hzero (q : BitVec 5) (pc : BitVec 64) :
        ({ h₃.set 0 (h₃.pc + 4#64) with pc := pc } : Hart).get q = h₃.get q :=
      Hart.get_set_zero _ _ q
    refine ⟨{ h₃.set 0 (h₃.pc + 4#64) with pc := h₃.get 1 &&& ~~~1#64 }, ?_, ?_, ?_, ?_, ?_,
      fun q h1 h2 h8 => ?_, ?_⟩
    · rw [run_cons, hexec₁, Option.bind_some, run_cons, hexec₂, Option.bind_some, run_cons, hexec₃,
        Option.bind_some, run_cons, exec_jalr hw₃, Option.bind_some, run_nil]
      congr 3
      rw [show (0 : BitVec 32).signExtend 64 = 0#64 from rfl, BitVec.add_zero]
    · rw [hzero]
    · rw [hzero, hset₃.value, hsp]
    · rw [hzero, hzero, hra]
    · rw [hzero, hzero, hs0]
    · rw [hzero, hset₃.frame q h2, hset₂.frame q h8, hset₁.frame q h1]
    · exact hset₃.mem.trans (hset₂.mem.trans hset₁.mem)

theorem run_nop : ∃ nop, EI 0x13 0 0 0 0 = some nop ∧ Straight nop ∧
    ∀ h, ∃ h', exec nop h = some h' ∧ (∀ q, h'.get q = h.get q) ∧ h'.mem = h.mem := by
  obtain ⟨nop, hnop⟩ : ∃ w, EI 0x13 0 0 0 0 = some w := ⟨_, if_pos rfl⟩
  exact ⟨nop, hnop, straight_of_set (exec_addi hnop),
    fun h => ⟨_, exec_addi hnop h, Hart.get_set_zero h _, rfl⟩⟩

/-- The rest of the header of a small frame. -/
theorem run_set_s0 {n : Nat} {d : Int} (hn : n ≤ 8) (hlo : 16 ≤ d) (hhi : d < 2048) :
    ∃ w, EI 0x13 0 8 2 (BitVec.ofInt 32 d - BitVec.ofNat 32 n * 8#32) = some w ∧ Straight w ∧
      ∀ h, ∃ h', exec w h = some h' ∧ Sets h 8 (h.get 2 + BitVec.ofInt 64 (d - (8 * n : Nat))) h' := by
  have himm := saved_imm d 0 n
  rw [BitVec.sub_zero, Int.ofNat_zero, Int.sub_zero] at himm
  obtain ⟨w, hw⟩ : ∃ w, EI 0x13 0 8 2 (BitVec.ofInt 32 (d - (8 * n : Nat))) = some w :=
    ⟨_, if_pos (imm12_ofInt (by omega) (by omega))⟩
  refine ⟨w, by rw [himm, hw], straight_of_set (exec_addi hw), fun h => ?_⟩
  obtain ⟨h', hexec, hset⟩ := step_addi hw (by decide) h
  rw [signExtend_ofInt (by omega) (by omega)] at hset
  exact ⟨h', hexec, hset⟩

/-- The rest of the header of a large frame, up to the jump back. -/
theorem run_enlarge {n : Nat} (hn : n ≤ 8) (v : BitVec 32) :
    ∃ w ws, EI 0x13 0 8 2 (16#32 - BitVec.ofNat 32 n * 8#32) = some w ∧ load_size v = some ws ∧
      ws.length = 2 ∧ (∀ x ∈ w :: ws ++ [ER 0x33 0 2 2 5 0x20], Straight x) ∧
      ∀ h, ∃ h', run (w :: ws ++ [ER 0x33 0 2 2 5 0x20]) h = some h' ∧
        h'.get 8 = h.get 2 + BitVec.ofInt 64 (16 - (8 * n : Nat)) ∧
        h'.get 2 = h.get 2 - splitSum (v - 16#32) ∧
        (∀ q, q ≠ 2#5 → q ≠ 5#5 → q ≠ 8#5 → h'.get q = h.get q) ∧ h'.mem = h.mem := by
  obtain ⟨w, hw, hstraight, hexec⟩ := run_set_s0 hn (d := 16) (by decide) (by decide)
  obtain ⟨ws, hws, hlen, hstraights, hrun⟩ := run_load_size v
  refine ⟨w, ws, hw, hws, hlen, ?_, fun h => ?_⟩
  · intro x hx
    rw [List.cons_append, List.mem_cons, List.mem_append, List.mem_singleton] at hx
    obtain rfl | hx | rfl := hx
    · exact hstraight
    · exact hstraights x hx
    · exact straight_of_set exec_sub
  · obtain ⟨h₁, hexec₁, hset₁⟩ := hexec h
    obtain ⟨h₂, hrun₂, hset₂⟩ := hrun h₁
    have hset₃ := Sets.set_next h₂ (r := 2) (by decide) (h₂.get 2 - h₂.get 5)
    generalize hh₃ : (h₂.set 2 (h₂.get 2 - h₂.get 5)).next = h₃ at hset₃
    refine ⟨h₃, ?_, ?_, ?_, fun q h2 h5 h8 => ?_, ?_⟩
    · rw [List.cons_append, run_cons, hexec₁, Option.bind_some, run_append, hrun₂, Option.bind_some,
        run_cons, exec_sub, hh₃, Option.bind_some, run_nil]
    · rw [hset₃.frame 8 (by decide), hset₂.frame 8 (by decide), hset₁.value]
    · rw [hset₃.value, hset₂.value, hset₂.frame 2 (by decide), hset₁.frame 2 (by decide)]
    · rw [hset₃.frame q h2, hset₂.frame q h5, hset₁.frame q h8]
    · exact hset₃.mem.trans (hset₂.mem.trans hset₁.mem)

/-- The displacements `gjmp_addr` gets right. -/
def Reaches (r : BitVec 32) : Prop :=
  (-2 ^ 20 ≤ r.toInt ∧ r.toInt < 2 ^ 20) ∨
    ((r.toInt < -2 ^ 21 ∨ 2 ^ 21 ≤ r.toInt) ∧ r.toInt + 2048 < 2 ^ 31)

theorem and_not_one_of_even {x : BitVec 64} (heven : x.getLsbD 0 = false) : x &&& ~~~1#64 = x := by
  apply BitVec.eq_of_getLsbD_eq
  intro i hi
  rw [BitVec.getLsbD_and]
  by_cases h0 : i = 0
  · rw [h0, heven, Bool.false_and]
  · have hmask : ∀ i : Fin 64, i.val ≠ 0 → (~~~1#64).getLsbD i = true := by decide
    rw [hmask ⟨i, hi⟩ h0, Bool.and_true]

theorem even_add {x y : BitVec 64} (hx : x.getLsbD 0 = false) (hy : y.getLsbD 0 = false) :
    (x + y).getLsbD 0 = false := by
  rw [BitVec.getLsbD, Nat.testBit_zero, decide_eq_false_iff_not] at *
  rw [BitVec.toNat_add]
  omega

theorem run_gjmp_addr {a ind : BitVec 32} (heven : (a - ind).getLsbD 0 = false)
    (hr : Reaches (a - ind)) : ∃ ws, gjmp_addr a ind = some ws ∧ (ws.length = 1 ∨ ws.length = 2) ∧
      ∀ code h target, Loaded code h.pc ws → h.pc.getLsbD 0 = false → h.pc ≠ target →
        h.pc + 4#64 ≠ target → ∃ h', Leads code target h h' ∧
          h'.pc = h.pc + (a - ind).signExtend 64 ∧ h'.mem = h.mem ∧
          ∀ q, q ≠ 5#5 → h'.get q = h.get q := by
  obtain ⟨hlo, hhi⟩ | ⟨hfar, hsplit⟩ := hr
  · refine ⟨_, gjmp_addr_near heven (by omega) (by omega), Or.inl rfl, ?_⟩
    intro code h target hload _ hpc _
    have hfetch : code h.pc = some (jal (a - ind)) := by
      have := hload 0 _ rfl
      rwa [Nat.mul_zero, BitVec.add_zero] at this
    have hstep := (step_of_fetch hfetch).trans (exec_jal _ h)
    rw [(jalOffset_eq_iff heven).mpr ⟨hlo, hhi⟩] at hstep
    exact ⟨{ h.set 0 (h.pc + 4#64) with pc := h.pc + (a - ind).signExtend 64 },
      Leads.step hpc hstep, rfl, rfl, fun q _ => Hart.get_set_zero _ _ q⟩
  · have hnear : ¬Near (a - ind) := fun hnear => by have := hnear.2; omega
    obtain ⟨hi, lo, hjump, hstraight, hexec⟩ := gjmp_addr_far hnear
    refine ⟨[hi, lo], hjump, Or.inr rfl, ?_⟩
    intro code h target hload hpceven hpc hpc4
    obtain ⟨h₁, hexec₁, h₂, hexec₂, hpc₂, hmem, hkeep⟩ := hexec h
    obtain ⟨hstep₁, hload₁⟩ := step_block hload hstraight hexec₁
    have hpc₁ := hstraight h h₁ hexec₁
    have hfetch : code h₁.pc = some lo := by
      have := hload₁ 0 _ rfl
      rwa [Nat.mul_zero, BitVec.add_zero] at this
    have hsum := (splitSum_eq_iff (a - ind)).mpr hsplit
    have heven' : ((a - ind).signExtend 64).getLsbD 0 = false := by
      rw [BitVec.getLsbD_signExtend]
      simpa using heven
    have hstep₂ := (step_of_fetch hfetch).trans hexec₂
    refine ⟨h₂, (Leads.step hpc hstep₁).trans (Leads.step (hpc₁ ▸ hpc4) hstep₂), ?_, hmem, hkeep⟩
    rw [hpc₂, hsum, and_not_one_of_even (even_add hpceven heven')]

end tcc.riscv64
