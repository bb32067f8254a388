import Tcc.Gen.Riscv64.Jumps

open machine machine.rv64

namespace tcc.riscv64.jumps

/-- The instruction takes control from the place `x` of the section to the place `a`,
    wherever the section is loaded, and changes nothing else. -/
def TransfersTo (w : Word) (x a : BitVec 32) : Prop :=
  ∀ (base : BitVec 64) (h : Hart), h.pc = base + x.signExtend 64 →
    ∃ h', exec w h = some h' ∧ h'.pc = base + a.signExtend 64 ∧ h'.mem = h.mem ∧
      ∀ q, h'.get q = h.get q

/-- Either an error, or a section in which the jumps `l` go to `a` and all other bytes are
    the ones from before. -/
def Patches (data : Bytes) (l : List (BitVec 32)) (a : BitVec 32) : Except String Bytes → Prop
  | .error _ => True
  | .ok data' => (∀ x ∈ l, TransfersTo (word data' x) x a) ∧
      ∀ j, (∀ x ∈ l, j < x.toNat ∨ x.toNat + 4 ≤ j) → data' j = data j

/-- A `jal` at `x` reaches `a`. -/
def JalReaches (x a : BitVec 32) : Prop :=
  (a - x).getLsbD 0 = false ∧ -2 ^ 20 ≤ a.toInt - x.toInt ∧ a.toInt - x.toInt < 2 ^ 20

/-- The code at `ind` jumps to `a`, and changes nothing else but `t0`. -/
def JumpsTo (ws : List Word) (ind a : BitVec 32) : Prop :=
  ∀ (code : Code) (base : BitVec 64) (h : Hart), h.pc = base + ind.signExtend 64 →
    h.pc.getLsbD 0 = false → Loaded code h.pc ws →
      ∃ h', steps code ws.length h = some h' ∧ h'.pc = base + a.signExtend 64 ∧ h'.mem = h.mem ∧
        ∀ q, q ≠ 5#5 → h'.get q = h.get q

section

variable {a x r : BitVec 32}

theorem toInt_sub_of_range (hlo : -2 ^ 31 ≤ a.toInt - x.toInt) (hhi : a.toInt - x.toInt < 2 ^ 31) :
    (a - x).toInt = a.toInt - x.toInt := by
  rw [BitVec.toInt_sub]
  exact Int.bmod_eq_of_le (by omega) (by omega)

/-- A displacement that fits in 32 bits leads from one address to the other. -/
theorem signExtend_add_sub (hlo : -2 ^ 31 ≤ a.toInt - x.toInt) (hhi : a.toInt - x.toInt < 2 ^ 31) :
    x.signExtend 64 + (a - x).signExtend 64 = a.signExtend 64 := by
  rw [BitVec.signExtend, BitVec.signExtend, BitVec.signExtend, toInt_sub_of_range hlo hhi,
    ← BitVec.ofInt_add, add_sub_cancel]

theorem jalOffset_bounds (r : BitVec 32) : -2 ^ 20 ≤ (jalOffset r).toInt ∧ (jalOffset r).toInt < 2 ^ 20 := by
  rw [jalOffset, BitVec.toInt_signExtend_of_le (by decide)]
  exact ⟨BitVec.le_toInt _, BitVec.toInt_lt⟩

theorem exec_patch_word (r : BitVec 32) (h : Hart) : ∃ h', exec (patch_word r) h = some h' ∧
    h'.pc = h.pc + jalOffset r ∧ h'.mem = h.mem ∧ ∀ q, h'.get q = h.get q := by
  by_cases hr : r = 4#32
  · rw [patch_word, if_pos hr, hr]
    refine ⟨_, @exec_add 0 0 0 h, ?_, rfl, fun q => Hart.get_set_zero _ _ q⟩
    exact congrArg (h.pc + ·) (by decide : 4#64 = jalOffset 4#32)
  · rw [patch_word, if_neg hr]
    exact ⟨_, exec_jal r h, rfl, rfl, fun q => Hart.get_set_zero _ _ q⟩

/-- Of the displacements that `gsym_addr` takes, `jal` has the ones of 20 bits and a sign. -/
theorem transfersTo_iff (heven : (a - x).getLsbD 0 = false) :
    TransfersTo (patch_word (a - x)) x a ↔ JalReaches x a := by
  constructor
  · intro htransfers
    obtain ⟨h', hexec, hpc, -⟩ :=
      htransfers 0#64 ⟨fun _ => 0#64, fun _ => 0#8, x.signExtend 64⟩ (BitVec.zero_add _).symm
    obtain ⟨h'', hexec', hpc', -⟩ :=
      exec_patch_word (a - x) ⟨fun _ => 0#64, fun _ => 0#8, x.signExtend 64⟩
    obtain rfl : h' = h'' := Option.some.inj (hexec.symm.trans hexec')
    rw [hpc', BitVec.zero_add] at hpc
    have hint := congrArg BitVec.toInt hpc
    obtain ⟨hlo, hhi⟩ := jalOffset_bounds (a - x)
    have hxlo := x.le_toInt
    have hxhi := x.toInt_lt
    rw [BitVec.toInt_add, BitVec.toInt_signExtend_of_le (by decide),
      BitVec.toInt_signExtend_of_le (by decide), Int.bmod_eq_of_le (by omega) (by omega)] at hint
    exact ⟨heven, by omega, by omega⟩
  · rintro ⟨-, hlo, hhi⟩ base h hpc
    have hint := toInt_sub_of_range (a := a) (x := x) (by omega) (by omega)
    obtain ⟨h', hexec, hpc', hmem, hget⟩ := exec_patch_word (a - x) h
    refine ⟨h', hexec, ?_, hmem, hget⟩
    rw [hpc', hpc, (jalOffset_eq_iff heven).mpr (by rw [hint]; exact ⟨hlo, hhi⟩), BitVec.add_assoc,
      signExtend_add_sub (by omega) (by omega)]

/-- Where `gjmp_addr` jumps. -/
theorem gjmp_addr_steps (a ind : BitVec 32) : ∃ ws, gjmp_addr a ind = some ws ∧
    ∀ code h, Loaded code h.pc ws → ∃ h', steps code ws.length h = some h' ∧
      h'.pc = (if Near (a - ind) then h.pc + jalOffset (a - ind)
        else (h.pc + splitSum (a - ind)) &&& ~~~1#64) ∧
      h'.mem = h.mem ∧ ∀ q, q ≠ 5#5 → h'.get q = h.get q := by
  by_cases hnear : Near (a - ind)
  · obtain ⟨heven, hlo, hhi⟩ := hnear
    refine ⟨_, gjmp_addr_near heven hlo hhi, fun code h hload => ?_⟩
    have hfetch : code h.pc = some (jal (a - ind)) := by
      have := hload 0 _ rfl
      rwa [Nat.mul_zero, BitVec.add_zero] at this
    refine ⟨{ h.set 0 (h.pc + 4#64) with pc := h.pc + jalOffset (a - ind) }, ?_, ?_, rfl,
      fun q _ => Hart.get_set_zero _ _ q⟩
    · rw [List.length_singleton, steps, (step_of_fetch hfetch).trans (exec_jal _ h), Option.bind_some,
        steps]
    · rw [if_pos ⟨heven, hlo, hhi⟩]
  · obtain ⟨hi, lo, hjump, hstraight, hexec⟩ := gjmp_addr_far hnear
    refine ⟨[hi, lo], hjump, fun code h hload => ?_⟩
    obtain ⟨h₁, hexec₁, h₂, hexec₂, hpc, hmem, hget⟩ := hexec h
    refine ⟨h₂, ?_, by rw [if_neg hnear]; exact hpc, hmem, hget⟩
    have hrun : run ([hi] ++ [lo]) h = some h₂ := by
      rw [List.singleton_append, run_cons, hexec₁, Option.bind_some, run_cons, hexec₂,
        Option.bind_some, run_nil]
    exact @steps_block_last _ [hi] _ _ _ hload (fun w hw => List.mem_singleton.mp hw ▸ hstraight) hrun

theorem getLsbD_zero_add (y z : BitVec 64) :
    (y + z).getLsbD 0 = (y.getLsbD 0 ^^ z.getLsbD 0) := by
  rw [BitVec.getLsbD_add (by decide), BitVec.carry_zero, Bool.xor_false]

theorem getLsbD_zero_signExtend (r : BitVec 32) : (r.signExtend 64).getLsbD 0 = r.getLsbD 0 := by
  rw [BitVec.getLsbD_signExtend, if_pos (by decide)]
  rfl

/-- The target of `gjmp_addr`, seen from an even address, is the displacement away exactly
    when this is even and one of the sequences reaches that far. -/
theorem jump_target_iff {pc : BitVec 64} (hpc : pc.getLsbD 0 = false) (r : BitVec 32) :
    (if Near r then pc + jalOffset r else (pc + splitSum r) &&& ~~~1#64) = pc + r.signExtend 64 ↔
      r.getLsbD 0 = false ∧ Reaches r := by
  by_cases hnear : Near r
  · have hreaches : Reaches r ↔ -2 ^ 20 ≤ r.toInt ∧ r.toInt < 2 ^ 20 := by
      have := hnear.2
      rw [Reaches]
      omega
    rw [if_pos hnear, BitVec.add_right_inj, jalOffset_eq_iff hnear.1, hreaches]
    exact (and_iff_right hnear.1).symm
  · rw [if_neg hnear]
    by_cases heven : r.getLsbD 0 = false
    · have hfar : r.toInt < -2 ^ 21 ∨ 2 ^ 21 ≤ r.toInt := by
        rw [Near, and_iff_right heven] at hnear
        omega
      have hreaches : Reaches r ↔ r.toInt + 2048 < 2 ^ 31 := by
        rw [Reaches]
        omega
      rw [and_iff_right heven, hreaches]
      by_cases hfits : r.toInt + 2048 < 2 ^ 31
      · have htarget : (pc + r.signExtend 64).getLsbD 0 = false := by
          rw [getLsbD_zero_add, hpc, getLsbD_zero_signExtend, heven]
          rfl
        rw [(splitSum_eq_iff r).mpr hfits, and_not_one_of_even htarget]
        exact iff_of_true rfl hfits
      · refine iff_of_false (fun heq => ?_) hfits
        have hsum : splitSum r = r.signExtend 64 - BitVec.ofInt 64 (2 ^ 32) := by
          rw [splitSum_of_carry (by omega), BitVec.signExtend, Int.sub_eq_add_neg, BitVec.ofInt_add,
            BitVec.ofInt_neg, ← BitVec.sub_eq_add_neg]
        have htarget : (pc + splitSum r).getLsbD 0 = false := by
          rw [getLsbD_zero_add, hpc, hsum, BitVec.sub_eq_add_neg, getLsbD_zero_add,
            getLsbD_zero_signExtend, heven]
          decide
        rw [and_not_one_of_even htarget, BitVec.add_right_inj, splitSum_eq_iff] at heq
        exact hfits heq
    · refine iff_of_false (fun heq => ?_) fun h => heven h.1
      have hbit := congrArg (BitVec.getLsbD · 0) heq
      simp only [BitVec.getLsbD_and, getLsbD_zero_add, hpc, getLsbD_zero_signExtend] at hbit
      rw [show (~~~1#64).getLsbD 0 = false from rfl, Bool.and_false, Bool.false_xor] at hbit
      exact heven hbit.symm

/-- `gjmp_addr` is exact for even displacements within reach of `jal`, or else of at least
    21 bits and less than 2 GiB by half a page. -/
theorem gjmp_addr_iff {ind : BitVec 32} (hlo : -2 ^ 31 ≤ a.toInt - ind.toInt)
    (hhi : a.toInt - ind.toInt < 2 ^ 31) : ∃ ws, gjmp_addr a ind = some ws ∧
      (JumpsTo ws ind a ↔ (a - ind).getLsbD 0 = false ∧ Reaches (a - ind)) := by
  obtain ⟨ws, hws, hsteps⟩ := gjmp_addr_steps a ind
  have hlen : ws.length = 1 ∨ ws.length = 2 := by
    obtain ⟨ws', hws', hlen⟩ := gjmp_addr_eq_some a ind
    obtain rfl : ws = ws' := Option.some.inj (hws.symm.trans hws')
    exact hlen
  have htarget (base : BitVec 64) :
      base + a.signExtend 64 = base + ind.signExtend 64 + (a - ind).signExtend 64 := by
    rw [BitVec.add_assoc, signExtend_add_sub hlo hhi]
  refine ⟨ws, hws, fun hjumps => ?_, fun hreaches code base h hpc heven hload => ?_⟩
  · have hload : Loaded (place ws) 0#64 ws := place_loaded (by omega)
    have hzero : 0#64 = -ind.signExtend 64 + ind.signExtend 64 := by
      rw [BitVec.add_comm, BitVec.add_neg_eq_sub, BitVec.sub_self]
    obtain ⟨h', hrun, hpc, -⟩ :=
      hjumps (place ws) (-ind.signExtend 64) ⟨fun _ => 0#64, fun _ => 0#8, 0#64⟩ hzero rfl hload
    obtain ⟨h'', hrun', hpc', -⟩ := hsteps (place ws) ⟨fun _ => 0#64, fun _ => 0#8, 0#64⟩ hload
    obtain rfl : h' = h'' := Option.some.inj (hrun.symm.trans hrun')
    refine (@jump_target_iff 0#64 rfl (a - ind)).mp ?_
    rw [← hpc', hpc, htarget, ← hzero]
  · obtain ⟨h', hrun, hpc', hmem, hget⟩ := hsteps code h hload
    refine ⟨h', hrun, ?_, hmem, hget⟩
    rw [hpc', (jump_target_iff heven (a - ind)).mpr hreaches, htarget, hpc]

end

/-- What `gsym_addr` does with a chain. `before` may differ from its section in the jumps. -/
theorem gsym_addr_patches_iff {before data : Bytes} {t : BitVec 32} {l : List (BitVec 32)}
    (hthreads : threaded.Threads (word data) 0#32 t l) (hapart : l.Pairwise Apart)
    (hsame : ∀ j, (∀ x ∈ l, j < x.toNat ∨ x.toNat + 4 ≤ j) → data j = before j)
    (a : BitVec 32) {fuel : Nat} (hfuel : l.length < fuel) :
    ∃ out, gsym_addr a fuel data t = some out ∧
      (Patches before l a out ↔ (∃ x ∈ l, ¬Near (a - x)) ∨ ∀ x ∈ l, JalReaches x a) := by
  refine ⟨_, gsym_addr_eq hthreads hapart hfuel, ?_⟩
  by_cases hnear : ∀ x ∈ l, Near (a - x)
  · rw [if_pos hnear, Patches]
    have hfar : ¬∃ x ∈ l, ¬Near (a - x) := by
      rintro ⟨x, hx, hx'⟩
      exact hx' (hnear x hx)
    have hreach (x : BitVec 32) (hx : x ∈ l) :
        TransfersTo (word (patched a data l) x) x a ↔ JalReaches x a := by
      rw [word_patched hapart hx]
      exact transfersTo_iff (hnear x hx).1
    rw [or_iff_right hfar, forall₂_congr hreach]
    exact and_iff_left fun j hj => (patched_outside hj).trans (hsame j hj)
  · rw [if_neg hnear]
    refine iff_of_true trivial (Or.inl ?_)
    push Not at hnear
    exact hnear

theorem append_patches_iff {text : Text} {n t : Chain} {cs : List Chain}
    (h : Wf ⟨text, n :: t :: cs⟩) (a : BitVec 32) {fuel : Nat}
    (hfuel : n.sites.length + t.sites.length < fuel) :
    ∃ v data' out, gjmp_append fuel text.data n.head t.head = some (v, data') ∧
      gsym_addr a fuel data' v = some out ∧
      (Patches text.data (n.sites ++ t.sites) a out ↔
        (∃ x ∈ n.sites ++ t.sites, ¬Near (a - x)) ∨ ∀ x ∈ n.sites ++ t.sites, JalReaches x a) := by
  have happend := @gjmp_append_eq t.head text.data n.sites fuel n.head h.uncons.1 (by omega)
  obtain ⟨-, -, hwf⟩ := Wf.gjmp_append (l := n.sites) (m := t.sites) h happend
  obtain ⟨hthreads, hapart, -⟩ := hwf.uncons
  have hsame (j : Nat) (hj : ∀ x ∈ n.sites ++ t.sites, j < x.toNat ∨ x.toNat + 4 ≤ j) :
      appended text.data n.sites t.head j = text.data j :=
    appended_outside fun x hx => hj x (List.mem_append_left _ hx)
  have hlength : (n.sites ++ t.sites).length < fuel := by
    rw [List.length_append]
    exact hfuel
  obtain ⟨out, hout, hiff⟩ := gsym_addr_patches_iff hthreads hapart hsame a hlength
  exact ⟨_, _, out, happend, hout, hiff⟩

/-- Of every chain, however it was put together, `gsym_addr` patches all the jumps and no
    other byte. They all lead to the target, or an error is reported, exactly when some jump
    is not taken for a near one or all are within reach of `jal`; so it is for two chains
    that are joined first; and `gjmp_addr` is exact within the reach of its sequences. -/
theorem jump_chains_iff {s : State} (hreach : Reachable s) :
    (∀ c ∈ s.chains, ∀ a fuel, c.sites.length < fuel →
      ∃ out, gsym_addr a fuel s.text.data c.head = some out ∧
        (Patches s.text.data c.sites a out ↔
          (∃ x ∈ c.sites, ¬Near (a - x)) ∨ ∀ x ∈ c.sites, JalReaches x a)) ∧
    (∀ n t cs, s.chains.Perm (n :: t :: cs) → ∀ a fuel, n.sites.length + t.sites.length < fuel →
      ∃ v data' out, gjmp_append fuel s.text.data n.head t.head = some (v, data') ∧
        gsym_addr a fuel data' v = some out ∧
        (Patches s.text.data (n.sites ++ t.sites) a out ↔
          (∃ x ∈ n.sites ++ t.sites, ¬Near (a - x)) ∨
            ∀ x ∈ n.sites ++ t.sites, JalReaches x a)) ∧
    ∀ a ind : BitVec 32, -2 ^ 31 ≤ a.toInt - ind.toInt → a.toInt - ind.toInt < 2 ^ 31 →
      ∃ ws, gjmp_addr a ind = some ws ∧
        (JumpsTo ws ind a ↔ (a - ind).getLsbD 0 = false ∧ Reaches (a - ind)) := by
  have hwf := reachable_wf hreach
  refine ⟨fun c hc a fuel hfuel => ?_, fun n t cs hperm a fuel hfuel => ?_,
    fun a ind hlo hhi => gjmp_addr_iff hlo hhi⟩
  · obtain ⟨front, back, hsplit⟩ := List.append_of_mem hc
    have hperm : s.chains.Perm (c :: (front ++ back)) := by
      rw [hsplit]
      exact List.perm_middle
    obtain ⟨hthreads, hapart, -⟩ := (hwf.reorder hperm).uncons
    exact gsym_addr_patches_iff hthreads hapart (fun _ _ => rfl) a hfuel
  · exact append_patches_iff (hwf.reorder hperm) a hfuel

/-- A section with one jump, at 20, and then other code up to `stop`. -/
def oneJump (stop : Nat) : State := ⟨⟨write32le (fun _ => 0#8) 20 0#32, stop⟩, [⟨20#32, [20#32]⟩]⟩

theorem oneJump_reachable {stop : Nat} (hstop : 24 ≤ stop) : Reachable (oneJump stop) := by
  have hjump : Reachable (oneJump 24) := by
    refine .step (.step (@Reachable.start ⟨fun _ => 0#8, 20⟩ (by decide)) .fresh) (.gjmp ?_)
    rfl
  refine .step hjump (.code (Nat.lt_of_lt_of_le (by decide) hstop) (fun _ _ => rfl) fun x hx => ?_)
  obtain rfl := List.mem_singleton.mp hx
  exact hstop

/-- A jump over 16 bytes. -/
theorem jump_chains_short : ∃ out, gsym_addr 40#32 2 (oneJump 40).text.data 20#32 = some out ∧
    Patches (oneJump 40).text.data [20#32] 40#32 out := by
  obtain ⟨out, hout, hiff⟩ := (jump_chains_iff (@oneJump_reachable 40 (by decide))).1
    ⟨20#32, [20#32]⟩ List.mem_cons_self 40#32 2 (by decide)
  refine ⟨out, hout, hiff.mpr (Or.inr fun x hx => ?_)⟩
  obtain rfl := List.mem_singleton.mp hx
  exact ⟨rfl, by decide, by decide⟩

/-- A jump over one MiB is patched without an error, and goes back by one MiB. -/
theorem far_jump_goes_back : ∃ s, Reachable s ∧ ∃ c ∈ s.chains, ∃ data',
    gsym_addr 0x100014#32 2 s.text.data c.head = some (.ok data') ∧
      ¬Patches s.text.data c.sites 0x100014#32 (.ok data') := by
  have hstop : 24 ≤ 0x100014 := by omega
  have hreach : Reachable (oneJump 0x100014) := oneJump_reachable hstop
  refine ⟨_, hreach, _, List.mem_cons_self, ?_⟩
  have hthreads := (reachable_wf hreach).threads _ List.mem_cons_self
  have heven : (0x100014#32 - 20#32).getLsbD 0 = false := rfl
  have hint : (0x100014#32 - 20#32).toInt = 2 ^ 20 := rfl
  have hnear : ∀ x ∈ [20#32], Near (0x100014#32 - x) := by
    intro x hx
    obtain rfl := List.mem_singleton.mp hx
    exact ⟨heven, by omega, by omega⟩
  have hout := @gsym_addr_eq 0x100014#32 20#32 _ [20#32] 2 hthreads (List.pairwise_singleton _ _)
    (Nat.lt_succ_self 1)
  rw [if_pos hnear] at hout
  refine ⟨_, hout, fun hpatches => ?_⟩
  have htransfers := hpatches.1 20#32 List.mem_cons_self
  rw [word_patched (List.pairwise_singleton _ _) List.mem_cons_self, transfersTo_iff heven] at htransfers
  have hdistance : (0x100014#32).toInt - (20#32).toInt = 2 ^ 20 := rfl
  have := htransfers.2.2
  omega

end tcc.riscv64.jumps
