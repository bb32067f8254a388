import Mathlib.Tactic.IntervalCases

namespace tcc

/-- The contents of a buffer, by byte position. -/
abbrev Bytes := Nat → BitVec 8

def read16le (p : Bytes) (i : Nat) : BitVec 16 :=
  (p i).setWidth 16 ||| (p (i + 1)).setWidth 16 <<< 8

def write16le (p : Bytes) (i : Nat) (x : BitVec 16) : Bytes :=
  Function.update (Function.update p i (x.setWidth 8)) (i + 1) ((x >>> 8).setWidth 8)

def read32le (p : Bytes) (i : Nat) : BitVec 32 :=
  (read16le p i).setWidth 32 ||| (read16le p (i + 2)).setWidth 32 <<< 16

def write32le (p : Bytes) (i : Nat) (x : BitVec 32) : Bytes :=
  write16le (write16le p i (x.setWidth 16)) (i + 2) ((x >>> 16).setWidth 16)

def add32le (p : Bytes) (i : Nat) (x : BitVec 32) : Bytes :=
  write32le p i (read32le p i + x)

def read64le (p : Bytes) (i : Nat) : BitVec 64 :=
  (read32le p i).setWidth 64 ||| (read32le p (i + 4)).setWidth 64 <<< 32

def write64le (p : Bytes) (i : Nat) (x : BitVec 64) : Bytes :=
  write32le (write32le p i (x.setWidth 32)) (i + 4) ((x >>> 32).setWidth 32)

def add64le (p : Bytes) (i : Nat) (x : BitVec 64) : Bytes :=
  write64le p i (read64le p i + x)

/-- Two buffers that differ only in the `n` bytes from `i` on. -/
def SameOutside (i n : Nat) (p q : Bytes) : Prop :=
  ∀ j, j < i ∨ i + n ≤ j → q j = p j

@[simp] theorem SameOutside.refl (i n : Nat) (p : Bytes) : SameOutside i n p p :=
  fun _ _ => rfl

theorem SameOutside.mono {i n k m : Nat} {p q : Bytes} (h : SameOutside i n p q)
    (hlo : k ≤ i) (hhi : i + n ≤ k + m) : SameOutside k m p q := by
  intro j hj
  exact h j (by omega)

theorem SameOutside.trans {i n : Nat} {p q r : Bytes} (hpq : SameOutside i n p q)
    (hqr : SameOutside i n q r) : SameOutside i n p r :=
  fun j hj => (hqr j hj).trans (hpq j hj)

theorem write16le_sameOutside (p : Bytes) (i : Nat) (x : BitVec 16) :
    SameOutside i 2 p (write16le p i x) := by
  intro j hj
  have h0 : j ≠ i := by omega
  have h1 : j ≠ i + 1 := by omega
  simp [write16le, h0, h1]

theorem write32le_sameOutside (p : Bytes) (i : Nat) (x : BitVec 32) :
    SameOutside i 4 p (write32le p i x) :=
  ((write16le_sameOutside p i _).mono (by omega) (by omega)).trans
    ((write16le_sameOutside _ (i + 2) _).mono (by omega) (by omega))

theorem write64le_sameOutside (p : Bytes) (i : Nat) (x : BitVec 64) :
    SameOutside i 8 p (write64le p i x) :=
  ((write32le_sameOutside p i _).mono (by omega) (by omega)).trans
    ((write32le_sameOutside _ (i + 4) _).mono (by omega) (by omega))

/-- Reading a word back is unaffected by changes elsewhere. -/
theorem SameOutside.read16le_eq {i n k : Nat} {p q : Bytes} (h : SameOutside i n p q)
    (hk : k + 2 ≤ i ∨ i + n ≤ k) : read16le q k = read16le p k := by
  simp only [read16le, h k (by omega), h (k + 1) (by omega)]

theorem SameOutside.read32le_eq {i n k : Nat} {p q : Bytes} (h : SameOutside i n p q)
    (hk : k + 4 ≤ i ∨ i + n ≤ k) : read32le q k = read32le p k := by
  simp only [read32le, h.read16le_eq (k := k) (by omega), h.read16le_eq (k := k + 2) (by omega)]

@[simp] theorem read16le_write16le (p : Bytes) (i : Nat) (x : BitVec 16) :
    read16le (write16le p i x) i = x := by
  have hlo : write16le p i x i = x.setWidth 8 := by simp [write16le]
  have hhi : write16le p i x (i + 1) = (x >>> 8).setWidth 8 := by simp [write16le]
  rw [read16le, hlo, hhi]
  ext j hj
  interval_cases j <;> simp

@[simp] theorem read32le_write32le (p : Bytes) (i : Nat) (x : BitVec 32) :
    read32le (write32le p i x) i = x := by
  have hlo : read16le (write32le p i x) i = x.setWidth 16 := by
    rw [write32le, (write16le_sameOutside _ (i + 2) _).read16le_eq (by omega), read16le_write16le]
  have hhi : read16le (write32le p i x) (i + 2) = (x >>> 16).setWidth 16 := by
    rw [write32le, read16le_write16le]
  rw [read32le, hlo, hhi]
  ext j hj
  interval_cases j <;> simp

end tcc
