import Tcc.Machine.BitMemory
import Tcc.Parse.StructFields

/-! Loads and stores of bit-fields. -/

open machine.bit_memory

namespace tcc.layout

/-- The bits of the type in which a bit-field is computed: `VT_LLONG` or `VT_INT`. -/
def BitType.bits (t : BitType) : Nat := if t = .llong then 64 else 32

/-- A bit-field with what accesses to it read of its type: the declared type, and `VT_UNSIGNED`. -/
structure BitField where
  bt : BitType
  bit_size : Nat
  c : Nat
  bit_pos : Nat
  auxtype : Aux
  is_unsigned : Bool

/-- `vtop->type` after `adjust_bf`. -/
def BitField.type (f : BitField) : BitType :=
  match f.auxtype with
  | .type t => t
  | _ => f.bt

/-- The value is not negative: `VT_UNSIGNED`, or `VT_BOOL`. -/
def BitField.unsigned_value (f : BitField) : Bool := f.is_unsigned || f.bt == .bool

/-- A number of `k` bits in a type of `w` bits. -/
def extend (is_unsigned : Bool) (w : Nat) {k : Nat} (x : BitVec k) : BitVec w :=
  if is_unsigned then x.setWidth w else x.signExtend w

/-- The loop of `load_packed_bf`, which reads a byte in each turn. -/
def load_loop {w : Nat} (mem : Mem) (a : Nat) (bit_pos : Fin 8) (bits bit_size : Nat) (x : BitVec w) : BitVec w :=
  if bit_size = 0 then x
  else
    let n := min (8 - bit_pos.val) bit_size
    let b := (mem a).setWidth 32 >>> bit_pos.val
    let b := if n < 8 then b &&& ((1#32 <<< n) - 1#32) else b
    load_loop mem (a + 1) 0 (bits + n) (bit_size - n) (b.setWidth w <<< bits ||| x)
termination_by bit_size
decreasing_by
  have := bit_pos.isLt
  omega

def load_packed_bf (f : BitField) (mem : Mem) : BitVec f.type.bits :=
  let x := load_loop mem (f.c + f.bit_pos / 8) ⟨f.bit_pos % 8, Nat.mod_lt _ (by decide)⟩ 0 f.bit_size 0#f.type.bits
  if f.unsigned_value then x
  else (x <<< (f.type.bits - f.bit_size)).sshiftRight (f.type.bits - f.bit_size)

/-- The value of a bit-field in `gv`. -/
def gv (f : BitField) (mem : Mem) : BitVec f.type.bits :=
  if f.auxtype = .bytes then load_packed_bf f mem
  else
    let x := extend (f.is_unsigned || f.type == .bool) f.type.bits (read (8 * f.type.size) mem f.c f.type.size)
    let x := x <<< (f.type.bits - (f.bit_pos + f.bit_size))
    if f.unsigned_value then x >>> (f.type.bits - f.bit_size) else x.sshiftRight (f.type.bits - f.bit_size)

/-- The loop of `store_packed_bf`, which writes a byte in each turn. -/
def store_loop {w : Nat} (mem : Mem) (a : Nat) (bit_pos : Fin 8) (bits bit_size : Nat) (x : BitVec w) : Mem :=
  if bit_size = 0 then mem
  else
    let n := min (8 - bit_pos.val) bit_size
    let v := (x >>> bits) <<< bit_pos.val
    let m := ((1#32 <<< n) - 1#32) <<< bit_pos.val
    let b := if n < 8 then (v &&& m.setWidth w).setWidth 8 ||| (mem a &&& (~~~m).setWidth 8) else v.setWidth 8
    store_loop (Function.update mem a b) (a + 1) 0 (bits + n) (bit_size - n) x
termination_by bit_size
decreasing_by
  have := bit_pos.isLt
  omega

/-- The bits of the type in which the stored value is computed, which stays `VT_INT` for a `_Bool`. -/
def BitField.op_bits (f : BitField) : Nat := if f.bt = .bool then 32 else f.type.bits

/-- The value that is stored: a cast to `VT_BOOL`, or to the type that is accessed. -/
def BitField.cast (f : BitField) (v : BitVec 64) : BitVec f.op_bits :=
  if f.bt = .bool then (if v = 0#64 then 0#_ else 1#_)
  else extend f.is_unsigned f.op_bits (v.setWidth (8 * f.type.size))

/-- The bit-field store of `vstore`. -/
def vstore (f : BitField) (v : BitVec 64) (mem : Mem) : Mem :=
  let x := f.cast v
  if f.auxtype = .bytes then
    store_loop mem (f.c + f.bit_pos / 8) ⟨f.bit_pos % 8, Nat.mod_lt _ (by decide)⟩ 0 f.bit_size x
  else
    let mask : BitVec f.op_bits := ((1#64 <<< f.bit_size) - 1#64).setWidth _
    let source := (if f.bt = .bool then x else x &&& mask) <<< f.bit_pos
    let dest := extend (f.is_unsigned || f.bt == .bool) f.type.bits (read (8 * f.type.size) mem f.c f.type.size)
    write mem f.c f.type.size
      ((dest &&& (~~~(mask <<< f.bit_pos)).signExtend f.type.bits) ||| source.signExtend f.type.bits)

/-- The loop of `init_putv` over the bytes of a bit-field. -/
def init_loop (mem : Mem) (a : Nat) (bit_pos : Fin 8) (bits bit_size : Nat) (val : BitVec 64) : Mem :=
  if bit_size = 0 then mem
  else
    let n := min (8 - bit_pos.val) bit_size
    let v : BitVec 8 := ((val >>> bits) <<< bit_pos.val).setWidth 8
    let m : BitVec 8 := (((1#32 <<< n) - 1#32) <<< bit_pos.val).setWidth 8
    init_loop (Function.update mem a ((mem a &&& ~~~m) ||| (v &&& m))) (a + 1) 0 (bits + n) (bit_size - n) val
termination_by bit_size
decreasing_by
  have := bit_pos.isLt
  omega

/-- `init_putv` of a constant for a bit-field, in the data of a section. -/
def init_putv (f : BitField) (v : BitVec 64) (mem : Mem) : Mem :=
  let val : BitVec 64 :=
    if f.bt = .bool then (if v = 0#64 then 0#64 else 1#64) else extend f.is_unsigned 64 (v.setWidth (8 * f.bt.size))
  init_loop mem (f.c + f.bit_pos / 8) ⟨f.bit_pos % 8, Nat.mod_lt _ (by decide)⟩ 0 f.bit_size val

/-- The bits of the member in memory. -/
def BitField.first_bit (f : BitField) : Nat := 8 * f.c + f.bit_pos

/-- What is accessed has the bits of the member, as in a valid layout. -/
structure BitField.Fits (f : BitField) : Prop where
  pos : 0 < f.bit_size
  width_le : f.bit_size ≤ 8 * f.type.size
  room : f.auxtype ≠ .bytes → f.bit_pos + f.bit_size ≤ 8 * f.type.size

/-- The value that is left of a stored one. -/
def BitField.kept (f : BitField) (v : BitVec 64) : BitVec f.bit_size :=
  if f.bt = .bool then (if v = 0#64 then 0#_ else 1#_) else v.setWidth _

section masks

variable {w n i : Nat}

theorem getLsbD_mask : ((1#w <<< n) - 1#w).getLsbD i = (decide (i < w) && decide (i < n)) := by
  have hmask : (1#w <<< n) - 1#w = BitVec.ofNat w (2 ^ n - 1) := by
    have hpow : 1#w <<< n = BitVec.ofNat w (2 ^ n) := by
      apply BitVec.eq_of_toNat_eq
      rw [BitVec.toNat_shiftLeft, BitVec.toNat_ofNat, BitVec.toNat_ofNat, Nat.shiftLeft_eq, Nat.mod_mul_mod,
        Nat.one_mul]
    cases w with
    | zero => exact BitVec.eq_of_zero_length rfl
    | succ w =>
      rw [hpow]
      exact BitVec.ofNat_sub_ofNat_of_le _ _ (Nat.one_lt_two_pow (Nat.succ_ne_zero w)) Nat.one_le_two_pow
  rw [hmask, BitVec.getLsbD_ofNat, Nat.testBit_two_pow_sub_one]

/-- A longer type keeps the bits of a number. -/
theorem getLsbD_extend {u : Bool} (x : BitVec n) (hi : i < n) :
    (extend u w x).getLsbD i = (decide (i < w) && x.getLsbD i) := by
  rw [extend]
  split
  · rw [BitVec.getLsbD_setWidth]
  · rw [BitVec.getLsbD_signExtend, if_pos hi]

theorem BitType.size_le_bits (t : BitType) : 8 * t.size ≤ t.bits := by
  cases t <;> decide

theorem BitField.byte_le_op_bits (f : BitField) : 8 ≤ f.op_bits := by
  rw [op_bits]
  cases f.type <;> split <;> decide

theorem BitField.op_bits_le (f : BitField) : f.op_bits ≤ 64 := by
  rw [op_bits]
  cases f.type <;> split <;> decide

end masks

section loops

variable {w : Nat} {mem : Mem} {a bits n i j : Nat} {p : Fin 8} {x : BitVec w}

/-- The bits of a byte that a turn of `load_packed_bf` reads. -/
theorem getLsbD_load_byte (p : Fin 8) (n i : Nat) (hn : n ≤ 8 - p.val) :
    (if n < 8 then (mem a).setWidth 32 >>> p.val &&& ((1#32 <<< n) - 1#32)
      else (mem a).setWidth 32 >>> p.val).getLsbD i =
      (decide (i < n) && bit mem (8 * a + p.val + i)) := by
  have hp := p.isLt
  have hbyte : ((mem a).setWidth 32 >>> p.val).getLsbD i = (mem a).getLsbD (p.val + i) := by
    rw [BitVec.getLsbD_ushiftRight, BitVec.getLsbD_setWidth]
    by_cases h : p.val + i < 32
    · simp [h]
    · rw [BitVec.getLsbD_of_ge _ _ (by omega)]
      simp
  by_cases hi : i < n
  · rw [Nat.add_assoc, bit_byte (by omega), decide_eq_true hi, Bool.true_and]
    split
    · rw [BitVec.getLsbD_and, hbyte, getLsbD_mask]
      simp [hi, show i < 32 by omega]
    · exact hbyte
  · rw [decide_eq_false hi, Bool.false_and]
    split
    · rw [BitVec.getLsbD_and, getLsbD_mask]
      simp [hi]
    · rw [hbyte]
      exact BitVec.getLsbD_of_ge _ _ (by omega)

/-- `load_packed_bf` reads the bits of the member. -/
theorem getLsbD_load_loop : (load_loop mem a p bits n x).getLsbD j =
    (x.getLsbD j || (decide (j < w) && (decide (bits ≤ j ∧ j < bits + n) &&
      bit mem (8 * a + p.val + (j - bits))))) := by
  induction n using Nat.strong_induction_on generalizing a p bits x with
  | h n ih =>
    rw [load_loop]
    by_cases hn : n = 0
    · rw [if_pos hn]
      simp [show ¬(bits ≤ j ∧ j < bits + n) by omega]
    · have hp := p.isLt
      obtain ⟨k, hk⟩ : ∃ k, k = min (8 - p.val) n := ⟨_, rfl⟩
      simp only [if_neg hn, ← hk]
      rw [ih (n - k) (by omega), BitVec.getLsbD_or, BitVec.getLsbD_shiftLeft, BitVec.getLsbD_setWidth,
        getLsbD_load_byte p k (j - bits) (by omega)]
      by_cases hw : j < w
      · by_cases hlow : j < bits
        · simp [hw, hlow, show ¬bits + k ≤ j by omega, show ¬bits ≤ j by omega]
        · by_cases hin : j < bits + k
          · simp [hw, hlow, show ¬bits + k ≤ j by omega, show bits ≤ j by omega, show j < bits + n by omega,
              show j - bits < w by omega, show j - bits < k by omega, Bool.or_comm]
          · have hnext : k < n → 8 * (a + 1) + (0 : Fin 8).val + (j - (bits + k)) = 8 * a + p.val + (j - bits) := by
              intro hkn
              have : k = 8 - p.val := by omega
              simp only [Fin.val_zero]
              omega
            by_cases hout : j < bits + n
            · rw [hnext (by omega)]
              simp [hw, hlow, show bits + k ≤ j by omega, show bits ≤ j by omega, hout,
                show ¬j - bits < k by omega, show j < bits + k + (n - k) by omega]
            · simp [hw, hlow, hout, show ¬j - bits < k by omega, show ¬j < bits + k + (n - k) by omega]
      · simp [hw]

/-- The byte that a turn of `store_packed_bf` writes. -/
theorem getLsbD_store_byte (hw : 8 ≤ w) (hn : n ≤ 8 - p.val) (hi : i < 8) :
    (if n < 8 then (((x >>> bits) <<< p.val) &&& (((1#32 <<< n) - 1#32) <<< p.val).setWidth w).setWidth 8 |||
        (mem a &&& (~~~(((1#32 <<< n) - 1#32) <<< p.val)).setWidth 8)
      else ((x >>> bits) <<< p.val).setWidth 8).getLsbD i =
      if p.val ≤ i ∧ i < p.val + n then x.getLsbD (bits + (i - p.val)) else bit mem (8 * a + i) := by
  have hp := p.isLt
  have hmask : (((1#32 <<< n) - 1#32) <<< p.val).getLsbD i = decide (p.val ≤ i ∧ i < p.val + n) := by
    rw [BitVec.getLsbD_shiftLeft, getLsbD_mask]
    by_cases h : p.val ≤ i
    · simp [h, show i < 32 by omega, show i - p.val < 32 by omega,
        show (i - p.val < n) = (i < p.val + n) by simp; omega]
    · simp [h, show i < p.val by omega]
  have hvalue : ((x >>> bits) <<< p.val).getLsbD i = (decide (p.val ≤ i) && x.getLsbD (bits + (i - p.val))) := by
    rw [BitVec.getLsbD_shiftLeft, BitVec.getLsbD_ushiftRight]
    by_cases h : p.val ≤ i
    · simp [h, show i < w by omega]
    · simp [h, show i < p.val by omega]
  split
  · rw [BitVec.getLsbD_or, BitVec.getLsbD_and, BitVec.getLsbD_setWidth, BitVec.getLsbD_and, BitVec.getLsbD_setWidth,
      BitVec.getLsbD_setWidth, BitVec.getLsbD_not, hmask, hvalue, bit_byte hi]
    by_cases h : p.val ≤ i ∧ i < p.val + n
    · simp [h, hi, show i < w by omega]
    · simp [h, hi, show i < 32 by omega]
  · rw [BitVec.getLsbD_setWidth, hvalue, if_pos (by omega)]
    simp [hi, show p.val ≤ i by omega]

/-- `store_packed_bf` changes the bits of the member and no others. -/
theorem bit_store_loop (hw : 8 ≤ w) : bit (store_loop mem a p bits n x) i =
    if 8 * a + p.val ≤ i ∧ i < 8 * a + p.val + n then x.getLsbD (bits + (i - (8 * a + p.val))) else bit mem i := by
  induction n using Nat.strong_induction_on generalizing mem a p bits with
  | h n ih =>
    rw [store_loop]
    by_cases hn : n = 0
    · rw [if_pos hn, if_neg (by omega)]
    · have hp := p.isLt
      obtain ⟨k, hk⟩ : ∃ k, k = min (8 - p.val) n := ⟨_, rfl⟩
      simp only [if_neg hn, ← hk]
      rw [ih (n - k) (by omega), bit_update]
      by_cases hrest : 8 * (a + 1) + (0 : Fin 8).val ≤ i ∧ i < 8 * (a + 1) + (0 : Fin 8).val + (n - k)
      · simp only [Fin.val_zero, Nat.add_zero] at hrest
        rw [if_pos (by simpa using hrest), if_pos (by omega)]
        congr 1
        simp only [Fin.val_zero]
        omega
      · rw [if_neg hrest]
        simp only [Fin.val_zero, Nat.add_zero] at hrest
        by_cases hbyte : i / 8 = a
        · rw [if_pos hbyte, getLsbD_store_byte hw (by omega) (by omega), show 8 * a + i % 8 = i by omega]
          by_cases h : p.val ≤ i % 8 ∧ i % 8 < p.val + k
          · rw [if_pos h, if_pos (by omega)]
            congr 1
            omega
          · rw [if_neg h, if_neg (by omega)]
        · rw [if_neg hbyte, if_neg (by omega)]

end loops

theorem BitField.Fits.size_le_bits {f : BitField} (hfits : f.Fits) : f.bit_size ≤ f.type.bits :=
  hfits.width_le.trans f.type.size_le_bits

/-- The bits of what is accessed are those of the memory. -/
theorem getLsbD_unit {f : BitField} {mem : Mem} {u : Bool} {k : Nat} (hk : k < 8 * f.type.size) :
    (extend u f.type.bits (read (8 * f.type.size) mem f.c f.type.size)).getLsbD k = bit mem (8 * f.c + k) := by
  have hbits := f.type.size_le_bits
  rw [getLsbD_extend _ hk, getLsbD_read]
  simp [hk, show k < f.type.bits by omega]

/-- Shifting up and down again leaves the low bits, with zeros or the sign above them. -/
theorem getLsbD_sshiftRight_shiftLeft {w n j : Nat} (x : BitVec w) (hn : 0 < n) (hw : n ≤ w) :
    ((x <<< (w - n)).sshiftRight (w - n)).getLsbD j =
      (decide (j < w) && if j < n then x.getLsbD j else x.getLsbD (n - 1)) := by
  rw [BitVec.getLsbD_sshiftRight, BitVec.msb_eq_getLsbD_last, BitVec.getLsbD_shiftLeft, BitVec.getLsbD_shiftLeft]
  by_cases hj : j < w
  · by_cases hlow : j < n
    · rw [if_pos (by omega), if_pos hlow]
      simp [hj, show w - n + j < w by omega, show ¬w ≤ j by omega]
    · rw [if_neg (by omega), if_neg hlow]
      simp [hj, show ¬w ≤ j by omega, show w - 1 < w by omega, show ¬w - 1 < w - n by omega,
        show w - 1 - (w - n) = n - 1 by omega]
  · simp [hj, show w ≤ j by omega]

/-- The value of a bit-field is made of the bits of the member. -/
theorem getLsbD_gv {f : BitField} {mem : Mem} {j : Nat} (hfits : f.Fits) : (gv f mem).getLsbD j =
    (decide (j < f.type.bits) && if j < f.bit_size then bit mem (f.first_bit + j)
      else !f.unsigned_value && bit mem (f.first_bit + (f.bit_size - 1))) := by
  have hbits := hfits.size_le_bits
  have hpos := hfits.pos
  rw [gv]
  split
  · have hload (j : Nat) : (load_loop mem (f.c + f.bit_pos / 8) ⟨f.bit_pos % 8, Nat.mod_lt _ (by decide)⟩ 0 f.bit_size
        0#f.type.bits).getLsbD j =
        (decide (j < f.type.bits) && (decide (j < f.bit_size) && bit mem (f.first_bit + j))) := by
      rw [getLsbD_load_loop]
      simp only [BitVec.getLsbD_zero, Bool.false_or, Nat.zero_le, true_and, Nat.zero_add, Nat.sub_zero]
      rw [show 8 * (f.c + f.bit_pos / 8) + f.bit_pos % 8 + j = f.first_bit + j by rw [BitField.first_bit]; omega]
    rw [load_packed_bf]
    split
    · rename_i hunsigned
      rw [hload, hunsigned]
      by_cases hj : j < f.bit_size <;> simp [hj]
    · rename_i hsigned
      rw [getLsbD_sshiftRight_shiftLeft _ hpos hbits, hload, hload]
      by_cases hj : j < f.bit_size
      · simp [hj]
      · simp [hj, hsigned, show f.bit_size - 1 < f.type.bits by omega, show f.bit_size - 1 < f.bit_size by omega]
  · rename_i hbytes
    have hroom := hfits.room hbytes
    have hwide := f.type.size_le_bits
    obtain ⟨u, hu⟩ : ∃ u, u = (f.is_unsigned || f.type == .bool) := ⟨_, rfl⟩
    obtain ⟨y, hy⟩ : ∃ y, y = extend u f.type.bits (read (8 * f.type.size) mem f.c f.type.size) <<<
      (f.type.bits - (f.bit_pos + f.bit_size)) := ⟨_, rfl⟩
    have hshift {k : Nat} (hk : k < f.bit_size) :
        y.getLsbD (f.type.bits - f.bit_size + k) = bit mem (f.first_bit + k) := by
      rw [hy, BitVec.getLsbD_shiftLeft, getLsbD_unit (by omega), BitField.first_bit]
      simp only [show f.type.bits - f.bit_size + k < f.type.bits by omega, decide_true, Bool.true_and,
        show ¬f.type.bits - f.bit_size + k < f.type.bits - (f.bit_pos + f.bit_size) by omega, decide_false,
        Bool.not_false]
      congr 1
      omega
    simp only [← hu, ← hy]
    split
    · rename_i hunsigned
      rw [BitVec.getLsbD_ushiftRight, hunsigned]
      by_cases hj : j < f.bit_size
      · rw [hshift hj]
        simp [hj, show j < f.type.bits by omega]
      · rw [BitVec.getLsbD_of_ge _ _ (by omega)]
        simp [hj]
    · rename_i hsigned
      rw [BitVec.getLsbD_sshiftRight, BitVec.msb_eq_getLsbD_last]
      by_cases hj : j < f.type.bits
      · by_cases hlow : j < f.bit_size
        · rw [if_pos (by omega), hshift hlow]
          simp [hj, hlow]
        · rw [if_neg (by omega)]
          have hmsb := hshift (k := f.bit_size - 1) (by omega)
          rw [show f.type.bits - f.bit_size + (f.bit_size - 1) = f.type.bits - 1 by omega] at hmsb
          rw [hmsb]
          simp [hj, hlow, hsigned]
      · simp [hj, show f.type.bits ≤ j by omega]

/-- The bits of the value that a store keeps. -/
theorem getLsbD_cast {f : BitField} {v : BitVec 64} {k : Nat} (hfits : f.Fits)
    (hwide : 8 * f.type.size ≤ f.op_bits) (hk : k < f.bit_size) :
    (f.cast v).getLsbD k = (f.kept v).getLsbD k := by
  have hwidth := hfits.width_le
  rw [BitField.cast, BitField.kept]
  split
  · split
    · simp
    · simp [BitVec.getLsbD_one, show 0 < f.op_bits by omega, show 0 < f.bit_size by omega]
  · rw [getLsbD_extend _ (by omega), BitVec.getLsbD_setWidth, BitVec.getLsbD_setWidth]
    simp [hk, show k < f.op_bits by omega, show k < 8 * f.type.size by omega]

/-- A `_Bool` has nothing above its first bit. -/
theorem getLsbD_cast_bool {f : BitField} {v : BitVec 64} {k : Nat} (hbool : f.bt = .bool) (hk : k ≠ 0) :
    (f.cast v).getLsbD k = false := by
  rw [BitField.cast, if_pos hbool]
  split
  · simp
  · simp [BitVec.getLsbD_one, hk]

/-- A store changes the bits of the member and no others. -/
theorem bit_vstore {f : BitField} {v : BitVec 64} {mem : Mem} {i : Nat} (hfits : f.Fits)
    (hwide : 8 * f.type.size ≤ f.op_bits) : bit (vstore f v mem) i =
    if f.first_bit ≤ i ∧ i < f.first_bit + f.bit_size then (f.cast v).getLsbD (i - f.first_bit) else bit mem i := by
  have hfirst : f.first_bit = 8 * f.c + f.bit_pos := rfl
  rw [vstore]
  split
  · rw [bit_store_loop f.byte_le_op_bits]
    simp only [show 8 * (f.c + f.bit_pos / 8) + f.bit_pos % 8 = f.first_bit by omega, Nat.zero_add]
  · rename_i hbytes
    have hroom := hfits.room hbytes
    have hpos := hfits.pos
    have hbits := f.type.size_le_bits
    have hle := f.op_bits_le
    rw [bit_write]
    by_cases hunit : 8 * f.c ≤ i ∧ i < 8 * (f.c + f.type.size)
    · obtain ⟨k, rfl⟩ : ∃ k, i = 8 * f.c + k := ⟨i - 8 * f.c, by omega⟩
      have hk : k < 8 * f.type.size := by omega
      have hextend (x : BitVec f.op_bits) : (x.signExtend f.type.bits).getLsbD k = x.getLsbD k := by
        rw [BitVec.getLsbD_signExtend, if_pos (by omega)]
        simp [show k < f.type.bits by omega]
      have hmask (l : Nat) (hl : l < f.op_bits) :
          (((1#64 <<< f.bit_size) - 1#64).setWidth f.op_bits).getLsbD l = decide (l < f.bit_size) := by
        rw [BitVec.getLsbD_setWidth, getLsbD_mask]
        simp [hl, show l < 64 by omega]
      have hsource : ((if f.bt = .bool then f.cast v
          else f.cast v &&& ((1#64 <<< f.bit_size) - 1#64).setWidth f.op_bits) <<< f.bit_pos).getLsbD k =
          (decide (f.bit_pos ≤ k ∧ k < f.bit_pos + f.bit_size) && (f.cast v).getLsbD (k - f.bit_pos)) := by
        rw [BitVec.getLsbD_shiftLeft]
        by_cases hlow : f.bit_pos ≤ k
        · have hin : (if f.bt = .bool then f.cast v
              else f.cast v &&& ((1#64 <<< f.bit_size) - 1#64).setWidth f.op_bits).getLsbD (k - f.bit_pos) =
              (decide (k - f.bit_pos < f.bit_size) && (f.cast v).getLsbD (k - f.bit_pos)) := by
            split
            · rename_i hbool
              by_cases hlt : k - f.bit_pos < f.bit_size
              · simp [hlt]
              · rw [getLsbD_cast_bool hbool (by omega), Bool.and_false]
            · rw [BitVec.getLsbD_and, hmask _ (by omega), Bool.and_comm]
          rw [hin]
          simp [hlow, show k < f.op_bits by omega, show ¬k < f.bit_pos by omega,
            show (k - f.bit_pos < f.bit_size) = (k < f.bit_pos + f.bit_size) by simp; omega]
        · simp [hlow, show k < f.bit_pos by omega]
      have hclear : (((1#64 <<< f.bit_size) - 1#64).setWidth f.op_bits <<< f.bit_pos).getLsbD k =
          decide (f.bit_pos ≤ k ∧ k < f.bit_pos + f.bit_size) := by
        rw [BitVec.getLsbD_shiftLeft]
        by_cases hlow : f.bit_pos ≤ k
        · rw [hmask _ (by omega)]
          simp [hlow, show k < f.op_bits by omega, show ¬k < f.bit_pos by omega,
            show (k - f.bit_pos < f.bit_size) = (k < f.bit_pos + f.bit_size) by simp; omega]
        · simp [hlow, show k < f.bit_pos by omega]
      rw [if_pos hunit, show 8 * f.c + k - 8 * f.c = k by omega, BitVec.getLsbD_or, BitVec.getLsbD_and, hextend,
        hextend, BitVec.getLsbD_not, getLsbD_unit hk, hclear, hsource]
      by_cases hin : f.bit_pos ≤ k ∧ k < f.bit_pos + f.bit_size
      · rw [if_pos (by omega), show 8 * f.c + k - f.first_bit = k - f.bit_pos by omega]
        simp [hin]
      · rw [if_neg (by omega)]
        simp [hin, show k < f.op_bits by omega]
    · rw [if_neg hunit, if_neg (by omega)]

/-- What is stored is loaded again, reduced to the width of the bit-field. -/
theorem gv_vstore {f : BitField} {v : BitVec 64} {mem : Mem} (hfits : f.Fits)
    (hwide : 8 * f.type.size ≤ f.op_bits) :
    gv f (vstore f v mem) = extend f.unsigned_value f.type.bits (f.kept v) := by
  have hpos := hfits.pos
  apply BitVec.eq_of_getLsbD_eq
  intro j hj
  have hbit {k : Nat} (hk : k < f.bit_size) : bit (vstore f v mem) (f.first_bit + k) = (f.kept v).getLsbD k := by
    rw [bit_vstore hfits hwide, if_pos (by omega), show f.first_bit + k - f.first_bit = k by omega,
      getLsbD_cast hfits hwide hk]
  rw [getLsbD_gv hfits, hbit (k := f.bit_size - 1) (by omega), extend, decide_eq_true hj, Bool.true_and]
  split
  · rename_i hlow
    rw [hbit hlow]
    split
    · rw [BitVec.getLsbD_setWidth, decide_eq_true hj, Bool.true_and]
    · rw [BitVec.getLsbD_signExtend, if_pos hlow, decide_eq_true hj, Bool.true_and]
  · rename_i hhigh
    split
    · rename_i hunsigned
      rw [hunsigned, BitVec.getLsbD_setWidth, BitVec.getLsbD_of_ge _ _ (Nat.le_of_not_lt hhigh)]
      simp
    · rename_i hsigned
      rw [BitVec.getLsbD_signExtend, if_neg hhigh, BitVec.msb_eq_getLsbD_last]
      simp [hj, hsigned]

/-- `init_putv` writes the bytes that `store_packed_bf` writes. -/
theorem init_loop_eq {n : Nat} {val : BitVec 64} : ∀ {mem : Mem} {a bits : Nat} {p : Fin 8},
    init_loop mem a p bits n val = store_loop mem a p bits n val := by
  induction n using Nat.strong_induction_on with
  | h n ih =>
    intro mem a bits p
    rw [init_loop, store_loop]
    by_cases hn : n = 0
    · rw [if_pos hn, if_pos hn]
    · have hp := p.isLt
      obtain ⟨k, hk⟩ : ∃ k, k = min (8 - p.val) n := ⟨_, rfl⟩
      simp only [if_neg hn, ← hk]
      rw [ih (n - k) (by omega)]
      congr 2
      apply BitVec.eq_of_getLsbD_eq
      intro i hi
      rw [getLsbD_store_byte (by decide) (by omega) hi, BitVec.getLsbD_or, BitVec.getLsbD_and, BitVec.getLsbD_and,
        BitVec.getLsbD_not, BitVec.getLsbD_setWidth, BitVec.getLsbD_setWidth, BitVec.getLsbD_shiftLeft,
        BitVec.getLsbD_shiftLeft, BitVec.getLsbD_ushiftRight, getLsbD_mask, bit_byte hi]
      by_cases hlow : p.val ≤ i
      · by_cases hin : i < p.val + k
        · simp [hi, hlow, hin, show i < 32 by omega, show i < 64 by omega, show ¬i < p.val by omega,
            show i - p.val < 32 by omega, show i - p.val < k by omega]
        · simp [hi, hlow, hin, show i < 32 by omega, show ¬i < p.val by omega, show i - p.val < 32 by omega,
            show ¬i - p.val < k by omega]
      · simp [hi, hlow, show i < p.val by omega]

/-- A static initializer leaves the memory that an assignment leaves. -/
theorem init_putv_eq_vstore {f : BitField} {v : BitVec 64} {mem : Mem} (hfits : f.Fits)
    (hwidth : f.bit_size ≤ 8 * f.bt.size) (hwide : 8 * f.type.size ≤ f.op_bits) :
    init_putv f v mem = vstore f v mem := by
  funext a
  refine byte_eq_of_bit fun i _ _ => ?_
  have hfirst : f.first_bit = 8 * f.c + f.bit_pos := rfl
  rw [bit_vstore hfits hwide, init_putv, init_loop_eq, bit_store_loop (by decide)]
  simp only [show 8 * (f.c + f.bit_pos / 8) + f.bit_pos % 8 = f.first_bit by omega, Nat.zero_add]
  by_cases hin : f.first_bit ≤ i ∧ i < f.first_bit + f.bit_size
  · rw [if_pos hin, if_pos hin, getLsbD_cast hfits hwide (by omega), BitField.kept]
    obtain ⟨k, hk⟩ : ∃ k, k = i - f.first_bit := ⟨_, rfl⟩
    rw [← hk]
    have hklt : k < f.bit_size := by omega
    have hle := f.bt.size_le
    split
    · split
      · simp
      · simp [BitVec.getLsbD_one, show 0 < f.bit_size by omega]
    · rw [getLsbD_extend _ (by omega), BitVec.getLsbD_setWidth, BitVec.getLsbD_setWidth]
      simp [hklt, show k < 64 by omega, show k < 8 * f.bt.size by omega]
  · rw [if_neg hin, if_neg hin]

/-- A load depends on the bits of the member alone. -/
theorem gv_congr {f : BitField} {mem mem' : Mem} (hfits : f.Fits)
    (h : ∀ i, f.first_bit ≤ i → i < f.first_bit + f.bit_size → bit mem' i = bit mem i) : gv f mem' = gv f mem := by
  have hpos := hfits.pos
  apply BitVec.eq_of_getLsbD_eq
  intro j _
  rw [getLsbD_gv hfits, getLsbD_gv hfits, h (f.first_bit + (f.bit_size - 1)) (by omega) (by omega)]
  congr 1
  split
  · exact h _ (by omega) (by omega)
  · rfl

/-- The bit-field of a member. -/
def Field.bit_field (f : Field) (bt : BitType) (n : Nat) (is_unsigned : Bool) : BitField :=
  ⟨bt, n, f.c, f.bit_pos, f.auxtype, is_unsigned⟩

theorem Layout.Valid.fits {cfg : Config} {ms : List Member} {L : Layout} (hL : L.Valid cfg ms) {f : Field}
    (hf : f ∈ L.fields) {bt : BitType} {n : Nat} (hkind : f.kind = .bits bt n) (hn : n ≠ 0) (is_unsigned : Bool) :
    (f.bit_field bt n is_unsigned).Fits := by
  obtain ⟨kind, c, bit_pos, auxtype⟩ := f
  simp only at hkind
  subst hkind
  have hwidth := hL.width_le _ hf bt n rfl
  have hcovers := hL.covers _ hf (by simpa [Field.width] using hn)
  have hroom : auxtype ≠ .bytes → bit_pos + n ≤ 8 * (Field.bit_field ⟨.bits bt n, c, bit_pos, auxtype⟩ bt n
      is_unsigned).type.size := by
    intro hbytes
    cases auxtype with
    | none =>
      simp only [Field.access, Field.first_bit, Field.width, if_neg hn] at hcovers
      simp only [Field.bit_field, BitField.type]
      omega
    | type t =>
      simp only [Field.access, Field.first_bit, Field.width, if_neg hn] at hcovers
      simp only [Field.bit_field, BitField.type]
      omega
    | bytes => exact (hbytes rfl).elim
  refine ⟨Nat.pos_of_ne_zero hn, ?_, hroom⟩
  cases auxtype with
  | none => exact hwidth
  | type t => exact (Nat.le_add_left _ _).trans (hroom Aux.noConfusion)
  | bytes => exact hwidth

/-- A stored value is only cut off where a long long is accessed for a `_Bool`. -/
theorem BitField.wide {f : BitField} (hbool : f.bt = .bool → f.type ≠ .llong) : 8 * f.type.size ≤ f.op_bits := by
  rw [op_bits]
  split
  · rename_i hbt
    cases htype : f.type with
    | llong => exact (hbool hbt htype).elim
    | _ => decide
  · exact f.type.size_le_bits

/-- The members of a structure have no bit in common. -/
theorem Layout.Valid.apart {cfg : Config} {ms : List Member} {L : Layout} (hL : L.Valid cfg ms)
    (hstruct : cfg.is_union = false) {i j : Nat} {f g : Field} (hi : L.fields[i]? = some f) (hj : L.fields[j]? = some g)
    (hne : j ≠ i) {k : Nat} (hlo : g.first_bit ≤ k) (hhi : k < g.first_bit + g.width) :
    ¬(f.first_bit ≤ k ∧ k < f.first_bit + f.width) := by
  have hordered := List.pairwise_iff_getElem.mp (hL.ordered hstruct)
  obtain ⟨hi', rfl⟩ := List.getElem?_eq_some_iff.mp hi
  obtain ⟨hj', rfl⟩ := List.getElem?_eq_some_iff.mp hj
  obtain hlt | hlt := Nat.lt_or_gt_of_ne hne
  · have := hordered j i hj' hi' hlt
    omega
  · have := hordered i j hi' hj' hlt
    omega

end tcc.layout
