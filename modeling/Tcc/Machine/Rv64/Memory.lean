import Mathlib.Order.CompletePartialOrder
import Tcc.Machine.Rv64.Exec

namespace machine.rv64

/-- The bytes of an access of `n` bytes at `addr`. -/
def cells (addr : BitVec 64) (n : Nat) : Set (BitVec 64) := {x | ∃ k < n, x = addr + BitVec.ofNat 64 k}

theorem mem_cells_succ {addr x : BitVec 64} {n : Nat} :
    x ∈ cells addr (n + 1) ↔ x = addr ∨ x ∈ cells (addr + 1#64) n := by
  constructor
  · rintro ⟨k, hk, rfl⟩
    cases k with
    | zero => exact Or.inl (by simp)
    | succ k =>
      refine Or.inr ⟨k, by omega, ?_⟩
      rw [BitVec.add_assoc, BitVec.ofNat_add, BitVec.add_comm (BitVec.ofNat 64 k)]
  · rintro (rfl | ⟨k, hk, rfl⟩)
    · exact ⟨0, by omega, by simp⟩
    · refine ⟨k + 1, by omega, ?_⟩
      rw [BitVec.add_assoc, BitVec.ofNat_add, BitVec.add_comm (BitVec.ofNat 64 k)]

theorem notMem_cells_add_one {addr : BitVec 64} {n : Nat} (hn : n < 2 ^ 64 - 1) :
    addr ∉ cells (addr + 1#64) n := by
  rintro ⟨k, hk, heq⟩
  have hval := congrArg BitVec.toNat heq
  simp only [BitVec.toNat_add, BitVec.toNat_ofNat] at hval
  have := addr.isLt
  omega

/-- A store changes only its own bytes. -/
theorem storeLE_of_notMem {mem : BitVec 64 → BitVec 8} {addr v x : BitVec 64} {n : Nat}
    (hx : x ∉ cells addr n) : storeLE mem addr v n x = mem x := by
  induction n generalizing mem addr v with
  | zero => rfl
  | succ n ih =>
    rw [mem_cells_succ, not_or] at hx
    rw [storeLE, ih hx.2, Function.update_of_ne hx.1]

theorem loadLE_congr {mem mem' : BitVec 64 → BitVec 8} {addr : BitVec 64} {n : Nat}
    (h : ∀ x ∈ cells addr n, mem x = mem' x) : loadLE mem addr n = loadLE mem' addr n := by
  induction n generalizing addr with
  | zero => rfl
  | succ n ih =>
    rw [loadLE, loadLE, h addr (mem_cells_succ.mpr (Or.inl rfl)),
      ih fun x hx => h x (mem_cells_succ.mpr (Or.inr hx))]

/-- A load reads the low bytes of what was stored. -/
theorem loadLE_storeLE (mem : BitVec 64 → BitVec 8) (addr v : BitVec 64) {n : Nat} (hn : n ≤ 8) :
    loadLE (storeLE mem addr v n) addr n = (v.setWidth (8 * n)).setWidth 64 := by
  induction n generalizing mem addr v with
  | zero =>
    apply BitVec.eq_of_getLsbD_eq
    intro i hi
    simp [loadLE]
  | succ n ih =>
    rw [loadLE, storeLE, ih _ _ _ (by omega),
      storeLE_of_notMem (notMem_cells_add_one (by omega)), Function.update_self]
    apply BitVec.eq_of_getLsbD_eq
    intro i hi
    simp only [BitVec.getLsbD_or, BitVec.getLsbD_setWidth, BitVec.getLsbD_shiftLeft,
      BitVec.getLsbD_ushiftRight]
    by_cases h8 : i < 8
    · simp [h8, hi, show i < 8 * (n + 1) by omega]
    · have hsub : 8 + (i - 8) = i := by omega
      simp only [h8, hsub, hi, decide_false, decide_true, Bool.false_and, Bool.and_false,
        Bool.false_or, Bool.true_and, Bool.not_false, show i - 8 < 64 by omega]
      congr 1
      exact decide_eq_decide.mpr ⟨fun h => by omega, fun h => by omega⟩

theorem loadLE_storeLE_eight (mem : BitVec 64 → BitVec 8) (addr v : BitVec 64) :
    loadLE (storeLE mem addr v 8) addr 8 = v := by
  rw [loadLE_storeLE mem addr v le_rfl, BitVec.setWidth_setWidth_of_le v le_rfl, BitVec.setWidth_eq]

theorem loadLE_storeLE_of_disjoint {mem : BitVec 64 → BitVec 8} {addr addr' v : BitVec 64}
    {n n' : Nat} (h : Disjoint (cells addr n) (cells addr' n')) :
    loadLE (storeLE mem addr' v n') addr n = loadLE mem addr n :=
  loadLE_congr fun _ hx => storeLE_of_notMem (Set.disjoint_left.mp h hx)

theorem disjoint_cells {addr d : BitVec 64} {n n' : Nat} (h : n ≤ d.toNat)
    (h' : d.toNat + n' ≤ 2 ^ 64) : Disjoint (cells addr n) (cells (addr + d) n') := by
  rw [Set.disjoint_left]
  rintro _ ⟨k, hk, rfl⟩ ⟨k', hk', heq⟩
  rw [BitVec.add_assoc] at heq
  have hval := congrArg BitVec.toNat ((BitVec.add_right_inj _).mp heq)
  have := d.isLt
  rw [BitVec.toNat_add, BitVec.toNat_ofNat, BitVec.toNat_ofNat] at hval
  omega

/-- A byte of a value, from the least significant one on. -/
def byte (v : BitVec 64) (k : Nat) : BitVec 8 := (v >>> (8 * k)).setWidth 8

theorem byte_loadLE (mem : BitVec 64 → BitVec 8) (addr : BitVec 64) {n k : Nat} (hk : k < n) (hn : n ≤ 8) :
    byte (loadLE mem addr n) k = mem (addr + BitVec.ofNat 64 k) := by
  induction n generalizing addr k with
  | zero => omega
  | succ n ih =>
    rw [byte, loadLE]
    cases k with
    | zero =>
      rw [BitVec.add_zero]
      ext i hi
      simp
    | succ k =>
      have hrest := ih (addr + 1#64) (show k < n by omega) (by omega)
      rw [BitVec.add_assoc, show (1#64 : BitVec 64) + BitVec.ofNat 64 k = BitVec.ofNat 64 (k + 1) by
        rw [BitVec.add_comm, ← BitVec.ofNat_add]] at hrest
      rw [← hrest, byte]
      ext i hi
      have hlow : (mem addr).getLsbD (8 * (k + 1) + i) = false := BitVec.getLsbD_of_ge _ _ (by omega)
      simp only [BitVec.getElem_setWidth, BitVec.getLsbD_ushiftRight, BitVec.getLsbD_or, BitVec.getLsbD_shiftLeft,
        BitVec.getLsbD_setWidth, hlow, Bool.and_false, Bool.false_or]
      rw [show 8 * (k + 1) + i - 8 = 8 * k + i by omega]
      simp only [show 8 * (k + 1) + i < 64 by omega, show ¬ 8 * (k + 1) + i < 8 by omega, decide_true,
        decide_false, Bool.not_false, Bool.true_and]

theorem byte_storeLE (mem : BitVec 64 → BitVec 8) (addr v : BitVec 64) {n k : Nat} (hk : k < n) (hn : n ≤ 8) :
    storeLE mem addr v n (addr + BitVec.ofNat 64 k) = byte v k := by
  induction n generalizing mem addr v k with
  | zero => omega
  | succ n ih =>
    rw [storeLE]
    cases k with
    | zero =>
      rw [BitVec.add_zero, storeLE_of_notMem (notMem_cells_add_one (by omega)),
        Function.update_self, byte, Nat.mul_zero, BitVec.ushiftRight_zero]
    | succ k =>
      have hrest := ih (Function.update mem addr (v.setWidth 8)) (addr + 1#64) (v >>> 8)
        (show k < n by omega) (by omega)
      rw [BitVec.add_assoc, show (1#64 : BitVec 64) + BitVec.ofNat 64 k = BitVec.ofNat 64 (k + 1) by
        rw [BitVec.add_comm, ← BitVec.ofNat_add]] at hrest
      rw [hrest, byte, byte, ← BitVec.shiftRight_add, show 8 + 8 * k = 8 * (k + 1) by ring]

end machine.rv64
