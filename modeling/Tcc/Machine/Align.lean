import Mathlib.Algebra.Divisibility.Basic
import Mathlib.Algebra.Group.Nat.Defs
import Mathlib.Algebra.GroupWithZero.Divisibility
import Mathlib.Algebra.Order.Ring.Int
import Mathlib.Algebra.Ring.Divisibility.Basic
import Mathlib.Data.Nat.Basic
import Mathlib.Order.Basic
import Mathlib.Order.Bounds.Defs

/-! Rounding to a multiple of a power of two by a mask, byte ranges of aligned objects in an area of
    memory, and ranges laid out one after another. -/

namespace machine

/-- The least multiple of `a` that is not below `x`. -/
def align_up (a x : Nat) : Nat := (x + a - 1) / a * a

theorem isLeast_align_up {a : Nat} (ha : 0 < a) (x : Nat) :
    IsLeast {y | x ≤ y ∧ a ∣ y} (align_up a x) := by
  have hdiv := Nat.div_add_mod (x + a - 1) a
  have hmod := Nat.mod_lt (x + a - 1) ha
  have heq : align_up a x = a * ((x + a - 1) / a) := Nat.mul_comm _ _
  refine ⟨⟨by omega, Dvd.intro_left _ rfl⟩, ?_⟩
  rintro y ⟨hxy, c, rfl⟩
  have hlt : (x + a - 1) / a ≤ c := by
    refine Nat.lt_succ_iff.mp ((Nat.div_lt_iff_lt_mul ha).mpr ?_)
    rw [Nat.succ_mul, Nat.mul_comm c a]
    omega
  rw [heq]
  exact Nat.mul_le_mul_left a hlt

theorem align_up_le (a x : Nat) : align_up a x ≤ x + a - 1 :=
  Nat.div_mul_le_self (x + a - 1) a

theorem toNat_and_neg_twoPow {w : Nat} (k : Nat) (x : BitVec w) :
    (x &&& -BitVec.twoPow w k).toNat = x.toNat / 2 ^ k * 2 ^ k := by
  have hbits : x &&& -BitVec.twoPow w k = (x >>> k) <<< k := by
    have hneg : -BitVec.twoPow w k = BitVec.allOnes w <<< k := by
      rw [← BitVec.neg_one_eq_allOnes, BitVec.shiftLeft_eq_mul_twoPow, BitVec.neg_mul, BitVec.one_mul]
    ext i hi
    rw [hneg, BitVec.getElem_and, BitVec.getElem_shiftLeft, BitVec.getElem_shiftLeft]
    by_cases hik : i < k
    · simp [hik]
    · simp [hik, Nat.add_sub_cancel' (Nat.not_lt.mp hik), hi]
  rw [hbits, BitVec.toNat_shiftLeft, BitVec.toNat_ushiftRight, Nat.shiftRight_eq_div_pow,
    Nat.shiftLeft_eq, Nat.mod_eq_of_lt]
  exact (Nat.div_mul_le_self x.toNat (2 ^ k)).trans_lt x.isLt

/-- The usual formula, for an alignment that is known to be a power of two by the usual test. -/
theorem toNat_align_up {w : Nat} {x n : BitVec w} (hn : 0 < n.toNat)
    (hpow : n &&& (n - 1#w) = 0#w) (hx : x.toNat + n.toNat - 1 < 2 ^ w) :
    ((x + n - 1#w) &&& -n).toNat = align_up n.toNat x.toNat := by
  have hw : 0 < w := by
    by_contra hzero
    obtain rfl : w = 0 := by omega
    have := n.isLt
    omega
  have hone : (1#w).toNat = 1 := BitVec.toNat_one hw
  have hsub : (n - 1#w).toNat = n.toNat - 1 := by
    rw [BitVec.toNat_sub_of_le, hone]
    rw [BitVec.le_def, hone]
    exact hn
  have hnat : n.toNat &&& (n.toNat - 1) = 0 := by
    rw [← hsub, ← BitVec.toNat_and, hpow, BitVec.toNat_ofNat, Nat.zero_mod]
  obtain ⟨k, hk⟩ := (Nat.and_sub_one_eq_zero_iff_isPowerOfTwo hn.ne').mp hnat
  have hn_eq : n = BitVec.twoPow w k := by
    apply BitVec.eq_of_toNat_eq
    rw [BitVec.toNat_twoPow, Nat.mod_eq_of_lt (hk ▸ n.isLt), hk]
  have hsum : (x + n - 1#w).toNat = x.toNat + n.toNat - 1 := by
    have hlt := x.isLt
    have hpos : 0 < 2 ^ w := Nat.two_pow_pos w
    rw [BitVec.toNat_sub, BitVec.toNat_add, hone]
    by_cases hover : x.toNat + n.toNat < 2 ^ w
    · rw [Nat.mod_eq_of_lt hover]
      have hcomm : 2 ^ w - 1 + (x.toNat + n.toNat) = 2 ^ w + (x.toNat + n.toNat - 1) := by omega
      rw [hcomm, Nat.add_mod_left, Nat.mod_eq_of_lt hx]
    · have hexact : x.toNat + n.toNat = 2 ^ w := by omega
      rw [hexact, Nat.mod_self, Nat.add_zero, Nat.mod_eq_of_lt (by omega)]
  rw [hn_eq, toNat_and_neg_twoPow k, ← hn_eq, hsum, ← hk, align_up]

end machine

namespace machine

/-- The bytes of an object, from `start` on, with the alignment it needs. -/
structure Region where
  start : Int
  size : Nat
  align : Nat
  deriving DecidableEq, Repr

def Region.stop (r : Region) : Int := r.start + r.size

/-- The two ranges have no byte in common, or one is empty. -/
def Region.Apart (r q : Region) : Prop := r.stop ≤ q.start ∨ q.stop ≤ r.start

theorem Region.Apart.symm {r q : Region} (h : r.Apart q) : q.Apart r := Or.symm h

/-- The start of the range is aligned in every area that starts at a multiple of `base`. -/
def Region.Aligned (base : Nat) (r : Region) : Prop :=
  ∀ a : Int, (base : Int) ∣ a → (r.align : Int) ∣ a + r.start

/-- Aligned ranges, apart from each other, within an area of `size` bytes. -/
structure AreaOk (base size : Nat) (rs : List Region) : Prop where
  apart : rs.Pairwise Region.Apart
  aligned : ∀ r ∈ rs, r.Aligned base
  within : ∀ r ∈ rs, 0 ≤ r.start ∧ r.stop ≤ size

theorem AreaOk.perm {base size : Nat} {rs qs : List Region} (hperm : rs.Perm qs) :
    AreaOk base size rs ↔ AreaOk base size qs := by
  have hmem {r : Region} : r ∈ rs ↔ r ∈ qs := hperm.mem_iff
  have hpair : rs.Pairwise Region.Apart ↔ qs.Pairwise Region.Apart :=
    hperm.pairwise_iff Region.Apart.symm
  constructor
  · intro h
    exact ⟨hpair.mp h.apart, fun r hr => h.aligned r (hmem.mpr hr),
      fun r hr => h.within r (hmem.mpr hr)⟩
  · intro h
    exact ⟨hpair.mpr h.apart, fun r hr => h.aligned r (hmem.mp hr),
      fun r hr => h.within r (hmem.mp hr)⟩

theorem Region.aligned_of_dvd {base : Nat} {r : Region} (hbase : r.align ∣ base)
    (hstart : (r.align : Int) ∣ r.start) : r.Aligned base :=
  fun _ ha => dvd_add ((Int.natCast_dvd_natCast.mpr hbase).trans ha) hstart

/-- The alignment of an aligned range divides that of the area. -/
theorem Region.Aligned.dvd {base : Nat} {r : Region} (h : r.Aligned base) : r.align ∣ base := by
  have hzero := h 0 (dvd_zero _)
  have hbase := h base dvd_rfl
  rw [Int.zero_add] at hzero
  exact Int.natCast_dvd_natCast.mp ((dvd_add_left hzero).mp hbase)

/-- Ranges one after another between two bounds. -/
def Chain : Int → List Region → Int → Prop
  | lo, [], hi => lo ≤ hi
  | lo, r :: rs, hi => lo ≤ r.start ∧ Chain r.stop rs hi

theorem Region.start_le_stop (r : Region) : r.start ≤ r.stop := by
  unfold Region.stop
  omega

theorem Chain.le {lo hi : Int} {rs : List Region} (h : Chain lo rs hi) : lo ≤ hi := by
  induction rs generalizing lo with
  | nil => exact h
  | cons r rs ih => exact h.1.trans (r.start_le_stop.trans (ih h.2))

theorem Chain.mono {lo lo' hi hi' : Int} {rs : List Region} (h : Chain lo rs hi) (hlo : lo' ≤ lo)
    (hhi : hi ≤ hi') : Chain lo' rs hi' := by
  induction rs generalizing lo lo' with
  | nil => exact hlo.trans (h.trans hhi)
  | cons r rs ih => exact ⟨hlo.trans h.1, ih h.2 le_rfl⟩

theorem Chain.append {lo mid hi : Int} {rs qs : List Region} (h : Chain lo rs mid)
    (hqs : Chain mid qs hi) : Chain lo (rs ++ qs) hi := by
  induction rs generalizing lo with
  | nil => exact hqs.mono h le_rfl
  | cons r rs ih => exact ⟨h.1, ih h.2⟩

theorem Chain.mem {lo hi : Int} {rs : List Region} (h : Chain lo rs hi) {r : Region}
    (hr : r ∈ rs) : lo ≤ r.start ∧ r.stop ≤ hi := by
  induction rs generalizing lo with
  | nil => cases hr
  | cons q rs ih =>
    rcases List.mem_cons.mp hr with rfl | hr
    · exact ⟨h.1, h.2.le⟩
    · have hrest := ih h.2 hr
      exact ⟨h.1.trans (q.start_le_stop.trans hrest.1), hrest.2⟩

theorem Chain.pairwise {lo hi : Int} {rs : List Region} (h : Chain lo rs hi) :
    rs.Pairwise Region.Apart := by
  induction rs generalizing lo with
  | nil => exact List.Pairwise.nil
  | cons r rs ih => exact List.Pairwise.cons (fun q hq => Or.inl (h.2.mem hq).1) (ih h.2)

theorem Chain.areaOk {base size : Nat} {rs : List Region} (h : Chain 0 rs size)
    (haligned : ∀ r ∈ rs, r.Aligned base) : AreaOk base size rs :=
  ⟨h.pairwise, haligned, fun _ hr => h.mem hr⟩

end machine
