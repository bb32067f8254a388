import Tcc.Gen.Riscv32.Pairs

open machine machine.rv32
open machine.rv64 (Word)
open tcc.link.riscv32 (PcrelHi)

/-! Loads and stores of the types of at most 32 bits. -/

namespace tcc.riscv32

open BType

/-- The value of an object at `addr`, as a 32-bit number. -/
def object (t : RegType) (mem : BitVec 32 → BitVec 8) (addr : BitVec 32) : BitVec 32 :=
  match t.val.bt with
  | VT_BYTE =>
    let b := (loadLE mem addr 1).setWidth 8
    if t.val.unsigned then b.setWidth 32 else b.signExtend 32
  | VT_SHORT =>
    let b := (loadLE mem addr 2).setWidth 16
    if t.val.unsigned then b.setWidth 32 else b.signExtend 32
  | _ => loadLE mem addr 4

/-- `load` leaves the value of the object in register `r`, and changes at most the scratch
    register beside it. -/
def Loads (r : Treg) (t : RegType) (a : Lvalue) : Prop :=
  ∃ code, load r t.val (.lval a) = some code ∧ ∀ h hi, ∃ h', run (linked h.pc hi code) h = some h' ∧
    h'.get (ireg r) = object t h.mem (denoted a h) ∧ Only [ireg r, 5] h h'

/-- `store` writes the register to the bytes of the object and to no others. -/
def Stores (r : Treg) (t : RegType) (a : Lvalue) : Prop :=
  ∃ code, store r t.val a = some code ∧ ∀ h hi, ∃ h', run (linked h.pc hi code) h = some h' ∧
    h'.mem = storeLE h.mem (denoted a h) (h.get (ireg r)) (type_size t.val.bt) ∧
    ∀ q, q ∉ [ireg r, 5] → h'.get q = h.get q

/-- A constant address with an upper word comes out right if it consists of its low byte,
    repeated in the way that `load_large_constant` puts it together. -/
def repeats (y : BitVec 32) : Prop :=
  let b := y.toNat % 256
  y.toNat = (b % 16 * 0x10010000 + b * 0x100101 - if 8 ≤ b % 16 then 0x100000 else 0) % 2 ^ 32

/-- The addresses that a load gets right. -/
def address_fits (a : Lvalue) : Prop :=
  match a with
  | .VT_LOCAL c | .VT_LLOCAL c => (c.setWidth 32).signExtend 64 = c ∧ LARGE_IMM (c.setWidth 32) = false
  | .VT_SYM s => LARGE_IMM (s.c.setWidth 32) = false
  | .VT_CONST c => if c.sshiftRight 32 = 0#64 then c.getLsbD 11 = false else repeats (c.setWidth 32)
  | .reg _ => True

/-- The bytes and halfwords are loaded with their sign. -/
def load_fits (t : RegType) (a : Lvalue) : Prop :=
  (t.val.unsigned = true → type_size t.val.bt = 4) ∧ address_fits a

/-- The addresses that a store gets right: not a spilled one, and not a constant. -/
def store_fits (a : Lvalue) : Prop :=
  match a with
  | .VT_LLOCAL _ | .VT_CONST _ => False
  | a => address_fits a

/-- The numbers that two copies of their signed low part and their low byte add up to. -/
theorem copies_eq_iff {n L : Nat}
    (hL : L = if n % 4096 < 2048 then n % 4096 else n % 4096 + (2 ^ 32 - 4096)) :
    ((L * 2 ^ 20 % 2 ^ 32 + L * 2 ^ 8 % 2 ^ 32) % 2 ^ 32 + n % 256) % 2 ^ 32 = n ↔
      n = (n % 256 % 16 * 0x10010000 + n % 256 * 0x100101 -
        if 8 ≤ n % 256 % 16 then 0x100000 else 0) % 2 ^ 32 := by
  obtain ⟨l, b, hlow, hl, hb⟩ : ∃ l b, n % 4096 = 256 * l + b ∧ l < 16 ∧ b < 256 :=
    ⟨n / 256 % 16, n % 256, by omega, by omega, by omega⟩
  obtain ⟨j, k, rfl, hk⟩ : ∃ j k, b = 16 * j + k ∧ k < 16 := ⟨b / 16, b % 16, by omega, by omega⟩
  have hbyte : n % 256 = 16 * j + k := by omega
  have hnibble : (16 * j + k) % 16 = k := by omega
  rw [hbyte, hnibble]
  have hsum : ((L * 2 ^ 20 % 2 ^ 32 + L * 2 ^ 8 % 2 ^ 32) % 2 ^ 32 + (16 * j + k)) % 2 ^ 32 =
      (L * 0x100100 + (16 * j + k)) % 2 ^ 32 := by omega
  rw [hsum]
  have hdvd (x : Nat) : x % 2 ^ 32 % 4096 = x % 4096 := Nat.mod_mod_of_dvd x (by decide)
  have hleft : (L * 0x100100 + (16 * j + k)) % 2 ^ 32 % 4096 = 256 * k + (16 * j + k) := by
    have hlast : L % 16 = k := by split at hL <;> omega
    rw [hdvd]
    clear hL hsum
    omega
  have hright : (k * 0x10010000 + (16 * j + k) * 0x100101 - if 8 ≤ k then 0x100000 else 0) % 2 ^ 32 % 4096 =
      256 * k + (16 * j + k) := by
    rw [hdvd]
    clear hL hsum hleft
    split <;> omega
  have hsame : l = k → (L * 0x100100 + (16 * j + k)) % 2 ^ 32 =
      (k * 0x10010000 + (16 * j + k) * 0x100101 - if 8 ≤ k then 0x100000 else 0) % 2 ^ 32 := by
    rintro rfl
    split at hL <;> split <;> omega
  constructor
  · intro heq
    rw [← hsame (by omega)]
    exact heq.symm
  · intro heq
    rw [hsame (by omega)]
    exact heq.symm

theorem large_formed_eq_iff (y : BitVec 32) : large_formed y + (y &&& 0xff#32) = y ↔ repeats y := by
  have hlow : (low y).toNat = if y.toNat % 4096 < 2048 then y.toNat % 4096 else y.toNat % 4096 + (2 ^ 32 - 4096) := by
    rw [low, BitVec.toNat_signExtend, BitVec.msb_eq_decide, BitVec.toNat_setWidth, BitVec.toNat_setWidth]
    simp only [Nat.reducePow]
    split <;> split <;> simp_all <;> omega
  have hbyte : (y &&& 0xff#32).toNat = y.toNat % 256 := by
    rw [BitVec.toNat_and]
    exact Nat.and_two_pow_sub_one_eq_mod _ 8
  rw [repeats, ← BitVec.toNat_inj, large_formed]
  simp only [BitVec.toNat_add, BitVec.toNat_shiftLeft, Nat.shiftLeft_eq, hlow, hbyte]
  exact copies_eq_iff rfl

theorem const_formed_eq_iff (c : BitVec 64) : const_formed c = c.setWidth 32 ↔ address_fits (.VT_CONST c) := by
  have hbit : (c.setWidth 32).getLsbD 11 = c.getLsbD 11 := by
    rw [BitVec.getLsbD_setWidth]
    rfl
  simp only [const_formed, address_fits]
  by_cases hsi : c.sshiftRight 32 = 0#64
  · rw [if_neg (not_not.mpr hsi), if_pos hsi, ← hbit]
    exact sub_page_eq_iff _ _
  · rw [if_pos hsi, if_neg hsi]
    exact large_formed_eq_iff _

/-- What a load instruction leaves: bytes and halfwords with their sign. -/
def loaded (t : RegType) (mem : BitVec 32 → BitVec 8) (addr : BitVec 32) : BitVec 32 :=
  match t.val.bt with
  | VT_BYTE => ((loadLE mem addr 1).setWidth 8).signExtend 32
  | VT_SHORT => ((loadLE mem addr 2).setWidth 16).signExtend 32
  | _ => loadLE mem addr 4

theorem loadValue_access (t : RegType) (mem : BitVec 32 → BitVec 8) (addr : BitVec 32) :
    loadValue (access_f3 t) mem addr = some (loaded t mem addr) := by
  unfold access_f3 loaded
  obtain hbt | hbt | hbt | hbt := in_register_cases t.property <;> rw [hbt] <;> rfl

theorem access_size (t : RegType) : (access_f3 t).toNat < 3 ∧ 2 ^ (access_f3 t).toNat = type_size t.val.bt := by
  unfold access_f3
  obtain hbt | hbt | hbt | hbt := in_register_cases t.property <;> rw [hbt] <;> decide

theorem loaded_eq_object {t : RegType} (ht : t.val.unsigned = true → type_size t.val.bt = 4)
    (mem : BitVec 32 → BitVec 8) (addr : BitVec 32) : loaded t mem addr = object t mem addr := by
  unfold loaded object
  cases hu : t.val.unsigned with
  | false => rfl
  | true =>
    have hsize := ht hu
    obtain hbt | hbt | hbt | hbt := in_register_cases t.property <;> rw [hbt] at hsize ⊢
    · exact absurd hsize (by decide)
    · exact absurd hsize (by decide)

theorem low_byte_loadLE (mem : BitVec 32 → BitVec 8) (addr : BitVec 32) (n : Nat) :
    (loadLE mem addr (n + 1)).setWidth 8 = mem addr := by
  rw [loadLE]
  ext i hi
  interval_cases i <;> simp

/-- The first byte of a loaded value is the one at its address. -/
theorem low_byte_loaded (t : RegType) (mem : BitVec 32 → BitVec 8) (addr : BitVec 32) :
    (loaded t mem addr).setWidth 8 = mem addr := by
  have hbyte (v : BitVec 32) : ((v.setWidth 8).signExtend 32).setWidth 8 = v.setWidth 8 := by
    ext i hi
    interval_cases i <;> simp [BitVec.getElem_signExtend]
  have hhalf (v : BitVec 32) : ((v.setWidth 16).signExtend 32).setWidth 8 = v.setWidth 8 := by
    ext i hi
    interval_cases i <;> simp [BitVec.getElem_signExtend]
  unfold loaded
  split
  · rw [hbyte, low_byte_loadLE]
  · rw [hhalf, low_byte_loadLE]
  · exact low_byte_loadLE mem addr 3

theorem low_byte_object (t : RegType) (mem : BitVec 32 → BitVec 8) (addr : BitVec 32) :
    (object t mem addr).setWidth 8 = mem addr := by
  have hbyte (v : BitVec 32) : ((v.setWidth 8).setWidth 32).setWidth 8 = v.setWidth 8 := by
    ext i hi
    interval_cases i <;> simp
  have hhalf (v : BitVec 32) : ((v.setWidth 16).setWidth 32).setWidth 8 = v.setWidth 8 := by
    ext i hi
    interval_cases i <;> simp
  have hsigned := low_byte_loaded t mem addr
  unfold loaded at hsigned
  unfold object
  split <;> simp_all only
  · split
    · rw [hbyte, low_byte_loadLE]
    · exact hsigned
  · split
    · rw [hhalf, low_byte_loadLE]
    · exact hsigned

/-- The address that `load` and `store` access. -/
def reached (a : Lvalue) (h : Hart) : BitVec 32 :=
  match a with
  | .VT_LLOCAL _ => loadLE h.mem (formed a h) 4
  | a => formed a h

theorem ireg_ne_scratch (r : Treg) : ireg r ≠ 5#5 ∧ ireg r ≠ 8#5 := by
  cases r with
  | R x => revert x; decide
  | TREG_RA => decide
  | TREG_SP => decide

section

variable {r : Treg} {t : RegType} {a : Lvalue} {code : List Insn}

theorem load_runs_direct (ha : ∀ c, a ≠ .VT_LLOCAL c) (hcode : load_lvalue r t.val a = some code) (h : Hart)
    (hi : PcrelHi) :
    ∃ h', run (linked h.pc hi code) h = some h' ∧ Only (ireg r :: changes (ireg r) (ireg r) a) h h' ∧
      h'.get (ireg r) = loaded t h.mem (formed a h) ∧ ∀ v, overwritten (ireg r) a = some v → h'.get 8 = v := by
  obtain ⟨pre, w, h₁, base, imm, hws, hrun, honly, hfields, hsum, hs0⟩ := load_lvalue_reaches ha hcode h hi
  have hset := Sets.set_next h₁ (ireg_ne_zero r) (loaded t h.mem (formed a h))
  have hvalue : loadValue (access_f3 t) h₁.mem (h₁.get base + imm) = some (loaded t h.mem (formed a h)) := by
    rw [hsum, honly.mem, loadValue_access]
  refine ⟨_, ?_, (honly.mono (List.subset_cons_self _ _)).trans (Only.of_sets hset List.mem_cons_self),
    hset.value, fun v hv => ?_⟩
  · rw [hws, run_append, hrun, Option.bind_some, run_cons, exec_load hfields h₁ hvalue]
    rfl
  · rw [hset.frame 8 (ireg_ne_scratch r).2.symm]
    exact hs0 v hv

/-- What the code of `load` does, whatever the address. -/
theorem load_runs (hcode : load_lvalue r t.val a = some code) (h : Hart) (hi : PcrelHi) :
    ∃ h', run (linked h.pc hi code) h = some h' ∧ Only (ireg r :: changes (ireg r) (ireg r) a) h h' ∧
      h'.get (ireg r) = loaded t h.mem (reached a h) ∧ ∀ v, overwritten (ireg r) a = some v → h'.get 8 = v := by
  cases a with
  | VT_LLOCAL c =>
    rw [load_llocal_eq, Option.map_eq_some_iff] at hcode
    obtain ⟨code₁, hcode₁, rfl⟩ := hcode
    have hdirect : ∀ c', Lvalue.VT_LOCAL c ≠ .VT_LLOCAL c' := fun _ => Lvalue.noConfusion
    obtain ⟨h₁, hrun, honly, hvalue, hs0⟩ :=
      load_runs_direct (t := ⟨⟨VT_PTR, false⟩, rfl⟩) hdirect hcode₁ h hi
    have hpointer : h₁.get (ireg r) = loadLE h.mem (formed (.VT_LLOCAL c) h) 4 := hvalue
    have hfields := fields_emit_I 0x03#7 (access_f3 t) (ireg r) (ireg r) 0#32
    have hzero : ((0#32).setWidth 12).signExtend 32 = 0#32 := by decide
    have haccess : loadValue (access_f3 t) h₁.mem (h₁.get (ireg r) + ((0#32).setWidth 12).signExtend 32) =
        some (loaded t h.mem (reached (.VT_LLOCAL c) h)) := by
      rw [hzero, BitVec.add_zero, hpointer, honly.mem, loadValue_access]
      rfl
    have hset := Sets.set_next h₁ (ireg_ne_zero r) (loaded t h.mem (reached (.VT_LLOCAL c) h))
    refine ⟨_, ?_, honly.trans (Only.of_sets hset List.mem_cons_self), hset.value, fun v hv => ?_⟩
    · rw [linked_append, run_append, hrun, Option.bind_some]
      exact congrArg (·.bind (run [])) (exec_load hfields h₁ haccess)
    · rw [hset.frame 8 (ireg_ne_scratch r).2.symm]
      exact hs0 v hv
  | VT_LOCAL c => exact load_runs_direct (fun _ => Lvalue.noConfusion) hcode h hi
  | VT_SYM s => exact load_runs_direct (fun _ => Lvalue.noConfusion) hcode h hi
  | VT_CONST c => exact load_runs_direct (fun _ => Lvalue.noConfusion) hcode h hi
  | reg v => exact load_runs_direct (fun _ => Lvalue.noConfusion) hcode h hi

/-- What the code of `store` does. -/
theorem store_runs (ha : ∀ c, a ≠ .VT_LLOCAL c) (hcode : store r t.val a = some code) (h : Hart) (hi : PcrelHi) :
    ∃ h', run (linked h.pc hi code) h = some h' ∧ (∀ q, q ∉ changes 5 8 a → h'.get q = h.get q) ∧
      (ireg r ∉ changes 5 8 a →
        h'.mem = storeLE h.mem (formed a h) (h.get (ireg r)) (type_size t.val.bt)) ∧
      ∀ v, overwritten 8 a = some v → h'.get 8 = v := by
  obtain ⟨pre, w, h₁, base, imm, hws, hrun, honly, hfields, hsum, hs0⟩ := store_reaches ha hcode h hi
  obtain ⟨hf3, hsize⟩ := access_size t
  have hexec := exec_store hfields hf3 h₁
  rw [hsum, hsize] at hexec
  refine ⟨{ h₁ with mem := storeLE h₁.mem (formed a h) (h₁.get (ireg r)) (type_size t.val.bt) }.next, ?_,
    honly.get, fun hr => ?_, hs0⟩
  · rw [hws, run_append, hrun, Option.bind_some, run_cons, hexec]
    rfl
  · change storeLE h₁.mem _ (h₁.get (ireg r)) _ = _
    rw [honly.mem, honly.get _ hr]

end

/-- The address of a fitting lvalue is the one it denotes, and preparing it leaves the frame
    pointer alone. -/
theorem address_fits_spec {a : Lvalue} (hfits : address_fits a) (rd rc : BitVec 5) (forstore : Bool) :
    (∃ x, address_base rd rc a forstore = some x) ∧ (∀ h, reached a h = denoted a h) ∧
      changes rd rc a ⊆ [rd, rc] := by
  cases a with
  | VT_LOCAL c =>
    obtain ⟨hwide, hsmall⟩ := hfits
    refine ⟨?_, fun h => ?_, ?_⟩
    · simp only [address_base, load_symofs, if_neg (not_not.mpr hwide), hsmall]
      exact ⟨_, rfl⟩
    · simp only [reached, formed, symofs_formed, hsmall]
      rfl
    · simp only [changes, symofs_changes, hsmall]
      exact List.nil_subset _
  | VT_LLOCAL c =>
    obtain ⟨hwide, hsmall⟩ := hfits
    refine ⟨?_, fun h => ?_, ?_⟩
    · simp only [address_base, load_symofs, if_neg (not_not.mpr hwide), hsmall]
      exact ⟨_, rfl⟩
    · simp only [reached, formed, symofs_formed, hsmall]
      rfl
    · simp only [changes, symofs_changes, hsmall]
      exact List.nil_subset _
  | VT_SYM s =>
    have hsmall : LARGE_IMM (s.c.setWidth 32) = false := hfits
    refine ⟨?_, fun h => rfl, List.cons_subset_cons _ (List.nil_subset _)⟩
    simp only [address_base, load_symofs, hsmall, Bool.false_eq_true, if_false]
    split <;> exact ⟨_, rfl⟩
  | VT_CONST c =>
    refine ⟨?_, fun h => (const_formed_eq_iff c).mpr hfits, List.subset_cons_self _ _⟩
    simp only [address_base]
    split <;> exact ⟨_, rfl⟩
  | reg v => exact ⟨⟨_, rfl⟩, fun h => rfl, List.nil_subset _⟩

/-- An lvalue that does not fit has no code, gets its address wrong or loses the frame
    pointer. -/
theorem not_address_fits {a : Lvalue} (hnot : ¬address_fits a) (rd rc : BitVec 5) (forstore : Bool) :
    address_base rd rc a forstore = none ∨ (∃ v, overwritten rc a = some v) ∨
      ∃ c, a = .VT_CONST c ∧ const_formed c ≠ c.setWidth 32 := by
  cases a with
  | VT_LOCAL c =>
    by_cases hwide : (c.setWidth 32).signExtend 64 = c
    · have hlarge : LARGE_IMM (c.setWidth 32) = true := by
        rw [← Bool.not_eq_false]
        exact fun hsmall => hnot ⟨hwide, hsmall⟩
      exact Or.inr (Or.inl ⟨_, if_pos hlarge⟩)
    · exact Or.inl (if_pos hwide)
  | VT_LLOCAL c =>
    by_cases hwide : (c.setWidth 32).signExtend 64 = c
    · have hlarge : LARGE_IMM (c.setWidth 32) = true := by
        rw [← Bool.not_eq_false]
        exact fun hsmall => hnot ⟨hwide, hsmall⟩
      exact Or.inr (Or.inl ⟨_, if_pos hlarge⟩)
    · exact Or.inl (if_pos hwide)
  | VT_SYM s =>
    have hlarge : LARGE_IMM (s.c.setWidth 32) = true := by
      rw [← Bool.not_eq_false]
      exact hnot
    exact Or.inl (if_pos hlarge)
  | VT_CONST c => exact Or.inr (Or.inr ⟨c, rfl, fun heq => hnot ((const_formed_eq_iff c).mp heq)⟩)
  | reg v => exact absurd trivial hnot

theorem load_lvalue_emitted_iff (r : Treg) (t : RegType) (a : Lvalue) :
    (∃ code, load_lvalue r t.val a = some code) ↔ ∃ x, address_base (ireg r) (ireg r) a false = some x := by
  have hdirect {t : RegType} {a : Lvalue} (ha : ∀ c, a ≠ .VT_LLOCAL c) :
      (∃ code, load_lvalue r t.val a = some code) ↔
        ∃ x, address_base (ireg r) (ireg r) a false = some x := by
    rw [load_lvalue_eq r t ha]
    cases address_base (ireg r) (ireg r) a false <;> simp
  cases a with
  | VT_LLOCAL c =>
    rw [load_llocal_eq]
    refine Iff.trans ?_ (hdirect (t := ⟨⟨VT_PTR, false⟩, rfl⟩) (a := .VT_LOCAL c) fun _ => Lvalue.noConfusion)
    cases load_lvalue r ⟨VT_PTR, false⟩ (.VT_LOCAL c) <;> simp
  | VT_LOCAL c => exact hdirect fun _ => Lvalue.noConfusion
  | VT_SYM s => exact hdirect fun _ => Lvalue.noConfusion
  | VT_CONST c => exact hdirect fun _ => Lvalue.noConfusion
  | reg v => exact hdirect fun _ => Lvalue.noConfusion

/-- A memory of bytes with their upper bit set. -/
def all_ones : BitVec 32 → BitVec 8 := fun _ => 0xff#8

theorem loaded_all_ones_ne {t : RegType} (hu : t.val.unsigned = true) (hsize : type_size t.val.bt ≠ 4)
    (addr addr' : BitVec 32) : loaded t all_ones addr ≠ object t all_ones addr' := by
  have hbyte (x : BitVec 32) : loadLE all_ones x 1 = 0xff#32 := by
    simp only [loadLE, all_ones]
    decide
  have hhalf (x : BitVec 32) : loadLE all_ones x 2 = 0xffff#32 := by
    simp only [loadLE, all_ones]
    decide
  unfold loaded object
  rw [hu]
  obtain hbt | hbt | hbt | hbt := in_register_cases t.property <;> rw [hbt] at hsize ⊢
  · simp only [hbyte]
    decide
  · simp only [hhalf]
    decide
  · exact absurd rfl hsize
  · exact absurd rfl hsize

theorem loads_iff (r : Treg) (t : RegType) (a : Lvalue) : Loads r t a ↔ load_fits t a := by
  constructor
  · rintro ⟨code, hcode, hloads⟩
    have hsame (h : Hart) : loaded t h.mem (reached a h) = object t h.mem (denoted a h) ∧
        ∀ v, overwritten (ireg r) a = some v → h.get 8 = v := by
      obtain ⟨h', hrun, -, hvalue, hs0⟩ := load_runs hcode h ⟨0, 0⟩
      obtain ⟨h'', hrun', hvalue', honly⟩ := hloads h ⟨0, 0⟩
      obtain rfl := Option.some.inj (hrun.symm.trans hrun')
      refine ⟨hvalue.symm.trans hvalue', fun v hv => ?_⟩
      rw [← hs0 v hv, honly.get 8 (by simp [(ireg_ne_scratch r).2.symm])]
    refine ⟨fun hu => ?_, ?_⟩
    · by_contra hsize
      exact loaded_all_ones_ne hu hsize _ _ (hsame ⟨fun _ => 0, all_ones, 0⟩).1
    · by_contra hnot
      obtain hnone | ⟨v, hv⟩ | ⟨c, rfl, hne⟩ := not_address_fits hnot (ireg r) (ireg r) false
      · obtain ⟨x, hx⟩ := (load_lvalue_emitted_iff r t a).mp ⟨code, hcode⟩
        rw [hnone] at hx
        cases hx
      · have hs0 : v + 1#32 = v := (hsame ⟨fun _ => v + 1#32, all_ones, 0⟩).2 v hv
        exact absurd (BitVec.self_eq_add_right.mp hs0.symm) (by decide)
      · let mem : BitVec 32 → BitVec 8 := fun x => if x = c.setWidth 32 then 1 else 0
        have hbyte := congrArg (BitVec.setWidth 8) (hsame ⟨fun _ => 0, mem, 0⟩).1
        rw [low_byte_loaded, low_byte_object] at hbyte
        change mem (const_formed c) = mem (c.setWidth 32) at hbyte
        simp only [mem, if_neg hne, if_true] at hbyte
        exact absurd hbyte (by decide)
  · rintro ⟨hsign, hfits⟩
    obtain ⟨hbase, hreached, hchanges⟩ := address_fits_spec hfits (ireg r) (ireg r) false
    obtain ⟨code, hcode⟩ := (load_lvalue_emitted_iff r t a).mpr hbase
    refine ⟨code, hcode, fun h hi => ?_⟩
    obtain ⟨h', hrun, honly, hvalue, -⟩ := load_runs hcode h hi
    refine ⟨h', hrun, ?_, honly.mono (List.cons_subset.mpr ⟨List.mem_cons_self, fun q hq => ?_⟩)⟩
    · rw [hvalue, hreached, loaded_eq_object hsign]
    · have hmem := hchanges hq
      simp only [List.mem_cons, List.not_mem_nil, or_false, or_self] at hmem ⊢
      exact Or.inl hmem

theorem stores_iff (r : Treg) (t : RegType) (a : Lvalue) : Stores r t a ↔ store_fits a := by
  have hne (c : BitVec 64) (ha : store_fits a) : a ≠ .VT_LLOCAL c := by
    rintro rfl
    exact ha
  obtain ⟨hscratch, hs0⟩ := ireg_ne_scratch r
  constructor
  · rintro ⟨code, hcode, hstores⟩
    have ha (c : BitVec 64) : a ≠ .VT_LLOCAL c := by
      rintro rfl
      rw [store_llocal_eq] at hcode
      cases hcode
    have hkept (v : BitVec 32) : overwritten 8 a ≠ some v := by
      intro hv
      obtain ⟨h', hrun, -, -, hover⟩ := store_runs ha hcode ⟨fun _ => v + 1#32, all_ones, 0⟩ ⟨0, 0⟩
      obtain ⟨h'', hrun', -, hregs⟩ := hstores ⟨fun _ => v + 1#32, all_ones, 0⟩ ⟨0, 0⟩
      obtain rfl := Option.some.inj (hrun.symm.trans hrun')
      have hsame := (hover v hv).symm.trans (hregs 8 (by simp [hs0.symm]))
      exact absurd (BitVec.self_eq_add_right.mp hsame) (by decide)
    have hconst (c : BitVec 64) : ∃ v, overwritten 8 (.VT_CONST c) = some v := by
      simp only [overwritten, if_true]
      exact ⟨_, rfl⟩
    have hfits : address_fits a := by
      by_contra hnot
      obtain hnone | ⟨v, hv⟩ | ⟨c, rfl, -⟩ := not_address_fits hnot 5 8 true
      · rw [store_eq r t ha, hnone] at hcode
        cases hcode
      · exact hkept v hv
      · obtain ⟨v, hv⟩ := hconst c
        exact hkept v hv
    cases a with
    | VT_LLOCAL c => exact absurd rfl (ha c)
    | VT_CONST c =>
      obtain ⟨v, hv⟩ := hconst c
      exact absurd hv (hkept v)
    | VT_LOCAL c => exact hfits
    | VT_SYM s => exact hfits
    | reg v => exact hfits
  · intro hfits
    have ha (c : BitVec 64) := hne c hfits
    have haddress : address_fits a ∧ changes 5 8 a = changes 5 5 a ∧
        address_base 5 8 a true = address_base 5 5 a true ∧ ∀ h, reached a h = formed a h := by
      cases a with
      | VT_LLOCAL c => exact absurd rfl (ha c)
      | VT_CONST c => exact absurd hfits id
      | VT_LOCAL c => exact ⟨hfits, rfl, rfl, fun _ => rfl⟩
      | VT_SYM s => exact ⟨hfits, rfl, rfl, fun _ => rfl⟩
      | reg v => exact ⟨hfits, rfl, rfl, fun _ => rfl⟩
    obtain ⟨hfits', hchanges, hbases, hformed⟩ := haddress
    obtain ⟨⟨x, hx⟩, hreached, hscratched⟩ := address_fits_spec hfits' 5 5 true
    obtain ⟨code, hcode⟩ : ∃ code, store r t.val a = some code :=
      ⟨_, by rw [store_eq r t ha, hbases, hx, Option.map_some]⟩
    have honly (q : BitVec 5) (hq : q ∈ changes 5 8 a) : q = 5 := by
      have hmem := hscratched (hchanges ▸ hq)
      simpa using hmem
    refine ⟨code, hcode, fun h hi => ?_⟩
    obtain ⟨h', hrun, hregs, hmem, -⟩ := store_runs ha hcode h hi
    refine ⟨h', hrun, ?_, fun q hq => hregs q fun hin => hq ?_⟩
    · rw [hmem fun hin => hscratch (honly _ hin), ← hformed, hreached]
    · rw [honly q hin]
      exact List.mem_cons_of_mem _ List.mem_cons_self

/-- Which loads and stores are right: near local variables, symbols with a small addend and
    pointers in registers, spilled pointers only for loads; a constant address for loads when
    bit 11 is clear, and never for stores; and no load of a narrow unsigned type. -/
theorem typed_access_iff (r : Treg) (t : RegType) (a : Lvalue) :
    (Loads r t a ↔ load_fits t a) ∧ (Stores r t a ↔ store_fits a) :=
  ⟨loads_iff r t a, stores_iff r t a⟩

/-- The load of an `unsigned char` through a pointer in `a1` extends its sign. -/
theorem load_of_uchar_signed : ¬Loads (.R 0) ⟨⟨VT_BYTE, true⟩, rfl⟩ (.reg (.R 1)) := by
  rintro ⟨code, hcode, hloads⟩
  cases hcode
  obtain ⟨h', hrun, hvalue, -⟩ := hloads ⟨fun _ => 0, all_ones, 0⟩ ⟨0, 0⟩
  cases hrun
  exact absurd hvalue (by decide)

end tcc.riscv32
