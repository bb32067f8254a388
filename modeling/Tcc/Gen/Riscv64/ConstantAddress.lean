import Tcc.Machine.Rv64.Memory
import Tcc.Gen.Riscv64.Clobber

open machine.rv64

/-! Loads and stores at constant addresses. -/

namespace tcc.riscv64.treg

open BType

/-- The base and the offset that `load` and `store` make of a constant address. -/
def const_address (d : BitVec 5) (c : BitVec 64) : Option (List Word × BitVec 32) :=
  if c.sshiftRight 32 ≠ 0#64 then
    (load_large_constant d (c.setWidth 32) (high_word c)).map (·, c.setWidth 32 &&& 0xff#32)
  else some ([lui d (0x800#32 + c.setWidth 32)], low12 (c.setWidth 32))

/-- The constant addresses that are formed right. -/
def address_fits (c : BitVec 64) : Prop :=
  if high_word c = 0#32 then c.toNat < 0x7ffff800 else ¬ rounds_over (c.setWidth 32)

instance (c : BitVec 64) : Decidable (address_fits c) := by
  unfold address_fits
  infer_instance

/-- The address that the code forms for a constant. -/
def formed (c : BitVec 64) : BitVec 64 := if address_fits c then c else c - 0x100000000#64

theorem formed_eq_ofInt (c : BitVec 64) :
    formed c = BitVec.ofInt 64 (c.toInt - if address_fits c then 0 else 2 ^ 32) := by
  unfold formed
  split
  · rw [Int.sub_zero, ← eq_ofInt_toInt]
  · conv_lhs => rw [eq_ofInt_toInt c]
    rw [show (0x100000000#64 : BitVec 64) = BitVec.ofInt 64 (2 ^ 32) by decide, ← ofInt_sub]

/-- `lui` and a signed offset form the address of a constant of 32 bits. -/
theorem splitSum_eq_formed {c : BitVec 64} (h : c.sshiftRight 32 = 0#64) :
    splitSum (c.setWidth 32) = formed c := by
  have hhigh := high_word_eq_zero_iff.mpr h
  have hfits : address_fits c ↔ c.toNat < 0x7ffff800 := by rw [address_fits, if_pos hhigh]
  have hdiv : c.toInt / 2 ^ 32 = 0 := by
    rw [← high_word_toInt, hhigh]
    rfl
  have hlow := low_word_toNat c
  have hcond := BitVec.toInt_eq_toNat_cond (c.setWidth 32)
  have hcond' := BitVec.toInt_eq_toNat_cond c
  have hlt := (c.setWidth 32).isLt
  have hlt' := c.isLt
  rw [formed_eq_ofInt]
  simp only [hfits]
  by_cases hcarry : (c.setWidth 32).toInt + 2048 < 2 ^ 31
  · rw [(splitSum_eq_iff _).mpr hcarry, signExtend_eq_ofInt]
    congr 1
    split_ifs at hcond hcond' ⊢ <;> omega
  · rw [splitSum_of_carry (by omega)]
    congr 1
    split_ifs at hcond hcond' ⊢ <;> omega

theorem large_value_eq_formed {c : BitVec 64} (h : c.sshiftRight 32 ≠ 0#64) : large_value c = formed c := by
  have hhigh := mt high_word_eq_zero_iff.mp h
  have hfits : address_fits c ↔ ¬ rounds_over (c.setWidth 32) := by rw [address_fits, if_neg hhigh]
  unfold large_value formed
  simp only [hfits]
  split <;> simp_all

theorem low_byte_signExtend_raw (fc : BitVec 32) :
    (fc &&& 0xff#32).signExtend 64 = (fc &&& 0xff#32).setWidth 64 := by
  ext i hi
  interval_cases i <;> simp [BitVec.getElem_signExtend, BitVec.msb_eq_getLsbD_last]

/-- The code for a constant address always exists; base and offset add up to `formed`. -/
theorem const_address_run {d : BitVec 5} (hd : d ≠ 0#5) (c : BitVec 64) :
    ∃ pre imm base, const_address d c = some (pre, imm) ∧ imm12 imm ∧
      base + imm.signExtend 64 = formed c ∧ ∀ s, ∃ s', run pre s = some s' ∧ Sets s d base s' := by
  unfold const_address
  by_cases hsi : c.sshiftRight 32 ≠ 0#64
  · obtain ⟨ws, hws, hrun⟩ := load_large_constant_run hd (c.setWidth 32) (high_word c)
    refine ⟨ws, _, _, by rw [if_pos hsi, hws]; rfl, imm12_low_byte _, ?_, hrun⟩
    rw [large_sum_eq, low_byte_signExtend_raw, BitVec.sub_add_cancel, large_value_eq_formed hsi]
  · refine ⟨[lui d (0x800#32 + c.setWidth 32)], low12 (c.setWidth 32),
      ((0x800#32 + c.setWidth 32) &&& 0xfffff000#32).signExtend 64, by rw [if_neg hsi], imm12_low12 _, ?_,
      fun s => ⟨_, by rw [run_cons, exec_lui, Option.bind_some, run_nil], Sets.set_next s hd _⟩⟩
    rw [low12_signExtend, BitVec.add_comm 0x800#32, ← splitSum]
    exact splitSum_eq_formed (not_not.mp hsi)

section

variable {r : Treg} {t : Scalar} {c : BitVec 64} {pre : List Word} {imm : BitVec 32} {w : Word}

theorem load_const_address (hr : is_freg r = true → float_or_double t)
    (hpre : const_address (rr r) c = some (pre, imm))
    (hw : EI (if is_freg r then 0x07 else 0x03) (load_func3 t) (rr r) (rr r) imm = some w) :
    load r t (.lval (.VT_CONST c)) = some (pre ++ [w]) := by
  unfold const_address at hpre
  simp only [load, load_lval]
  rw [if_neg (fun hand => hand.2 (hr hand.1))]
  split at hpre
  · rename_i hsi
    obtain ⟨ws, hws, heq⟩ := Option.map_eq_some_iff.mp hpre
    cases heq
    rw [high_word] at hws
    rw [if_pos hsi, hws, hw]
    rfl
  · rename_i hsi
    cases hpre
    rw [if_neg hsi, hw]
    rfl

theorem store_const_address (ht : is_scalar t = true) (hr : store_admits r t)
    (hpre : const_address 8 c = some (pre, imm))
    (hw : ES (store_opcode r) (store_func3 t) 8 (rr r) imm = some w) :
    store r t (.VT_CONST c) = some (pre ++ [w]) := by
  unfold const_address at hpre
  rw [store_eq ht hr]
  dsimp only
  split at hpre
  · rename_i hsi
    obtain ⟨ws, hws, heq⟩ := Option.map_eq_some_iff.mp hpre
    cases heq
    rw [if_pos hsi, hws, hw]
    rfl
  · rename_i hsi
    cases hpre
    rw [if_neg hsi, hw]
    rfl

end

/-- A value as a register holds it: with its sign or zeros above it, a single-precision
    value boxed. -/
def register_image (t : Scalar) (v : BitVec 64) : BitVec 64 :=
  match t.bt, t.unsigned with
  | VT_FLOAT, _ => box (v.setWidth 32)
  | VT_BYTE, false | VT_BOOL, false => (v.setWidth 8).signExtend 64
  | VT_BYTE, true | VT_BOOL, true => (v.setWidth 8).setWidth 64
  | VT_SHORT, false => (v.setWidth 16).signExtend 64
  | VT_SHORT, true => (v.setWidth 16).setWidth 64
  | VT_INT, _ => sext32 v
  | _, _ => v

/-- How many bytes the memory instructions move for a type. -/
def access_size (t : Scalar) : Nat := if t.bt = VT_LDOUBLE then 8 else btype_size t.bt

theorem getLsbD_box (x : BitVec 32) {i : Nat} (hi : i < 32) : (box x).getLsbD i = x.getLsbD i := by
  rw [box, BitVec.getLsbD_append, if_pos hi]

theorem getLsbD_register_image {t : Scalar} (v : BitVec 64) {i : Nat} (hi : i < 8 * access_size t) :
    (register_image t v).getLsbD i = v.getLsbD i := by
  obtain ⟨bt, u⟩ := t
  have hsigned {w : Nat} (hw : w ≤ 64) (hi : i < w) : ((v.setWidth w).signExtend 64).getLsbD i = v.getLsbD i := by
    rw [BitVec.getLsbD_signExtend]
    simp [hi, show i < 64 by omega]
  have hunsigned {w : Nat} (hw : w ≤ 64) (hi : i < w) : ((v.setWidth w).setWidth 64).getLsbD i = v.getLsbD i := by
    simp [hi, show i < 64 by omega]
  cases bt with
  | VT_FLOAT =>
    rw [register_image, getLsbD_box _ hi, BitVec.getLsbD_setWidth]
    simp [show i < 32 from hi]
  | VT_BYTE | VT_BOOL | VT_SHORT =>
    cases u with
    | false => exact hsigned (by decide) hi
    | true => exact hunsigned (by decide) hi
  | VT_INT => cases u <;> exact hsigned (by decide) hi
  | _ => cases u <;> rfl

theorem byte_register_image (t : Scalar) (v : BitVec 64) {k : Nat} (hk : k < access_size t) :
    byte (register_image t v) k = byte v k := by
  rw [byte, byte]
  ext i hi
  rw [BitVec.getElem_setWidth, BitVec.getElem_setWidth, BitVec.getLsbD_ushiftRight,
    BitVec.getLsbD_ushiftRight, getLsbD_register_image v (by omega)]

/-- The image only depends on the bytes of the type. -/
theorem register_image_congr {t : Scalar} (ht : is_scalar t = true) {x y : BitVec 64}
    (h : ∀ i < 8 * access_size t, x.getLsbD i = y.getLsbD i) : register_image t x = register_image t y := by
  have hword {w : Nat} (hxy : ∀ i < w, x.getLsbD i = y.getLsbD i) : x.setWidth w = y.setWidth w := by
    ext i hi
    rw [BitVec.getElem_setWidth, BitVec.getElem_setWidth, hxy i hi]
  obtain ⟨bt, u⟩ := t
  cases bt with
  | VT_BYTE | VT_BOOL =>
    have hbyte : x.setWidth 8 = y.setWidth 8 := hword h
    cases u <;> simp only [register_image, hbyte]
  | VT_SHORT =>
    have hhalf : x.setWidth 16 = y.setWidth 16 := hword h
    cases u <;> simp only [register_image, hhalf]
  | VT_INT | VT_FLOAT =>
    have hlow : x.setWidth 32 = y.setWidth 32 := hword h
    cases u <;> simp only [register_image, sext32, hlow]
  | VT_VOID | VT_STRUCT | VT_FUNC => cases ht
  | VT_LLONG | VT_PTR | VT_DOUBLE | VT_LDOUBLE => exact BitVec.eq_of_getLsbD_eq h

theorem register_image_idem {t : Scalar} (ht : is_scalar t = true) (v : BitVec 64) :
    register_image t (register_image t v) = register_image t v :=
  register_image_congr ht fun _ hi => getLsbD_register_image v hi

theorem loadValue_image {t : Scalar} (ht : is_scalar t = true) (hfloat : t.bt ≠ VT_FLOAT)
    (mem : BitVec 64 → BitVec 8) (addr : BitVec 64) :
    loadValue (load_func3 t) mem addr = some (register_image t (loadLE mem addr (access_size t))) := by
  have hzero {n : Nat} (hn : n ≤ 7) : ((loadLE mem addr n).setWidth (8 * n)).setWidth 64 = loadLE mem addr n := by
    apply BitVec.eq_of_toNat_eq
    have hlt := loadLE_lt mem addr (show n ≤ 8 by omega)
    rw [BitVec.toNat_setWidth, BitVec.toNat_setWidth, Nat.mod_eq_of_lt hlt, Nat.mod_eq_of_lt (BitVec.isLt _)]
  obtain ⟨bt, u⟩ := t
  cases bt with
  | VT_BYTE | VT_BOOL =>
    cases u with
    | false => rfl
    | true => exact congrArg some (hzero (n := 1) (by decide)).symm
  | VT_SHORT =>
    cases u with
    | false => rfl
    | true => exact congrArg some (hzero (n := 2) (by decide)).symm
  | VT_FLOAT => exact absurd rfl hfloat
  | VT_VOID | VT_STRUCT | VT_FUNC => cases ht
  | VT_INT | VT_LLONG | VT_PTR | VT_DOUBLE | VT_LDOUBLE => cases u <;> rfl

theorem floatValue_image {t : Scalar} (ht : float_or_double t) (mem : BitVec 64 → BitVec 8)
    (addr : BitVec 64) :
    floatValue (load_func3 t) mem addr = some (register_image t (loadLE mem addr (access_size t))) := by
  obtain ⟨bt, u⟩ := t
  obtain rfl | rfl : bt = VT_FLOAT ∨ bt = VT_DOUBLE := ht
  · cases u <;> rfl
  · cases u <;> rfl

/-- `load` from a constant address brings the bytes of the type into the register. -/
def Reads (r : Treg) (t : Scalar) (c : BitVec 64) : Prop :=
  ∃ ws, load r t (.lval (.VT_CONST c)) = some ws ∧ ∀ s, ∃ s', runF ws s = some s' ∧ s'.mem = s.mem ∧
    (∀ k < btype_size t.bt, byte (s'.read (name r)) k = s.mem (c + BitVec.ofNat 64 k)) ∧
      register_image t (s'.read (name r)) = s'.read (name r)

/-- `store` to a constant address replaces the bytes of the type and no others. -/
def Writes (r : Treg) (t : Scalar) (c : BitVec 64) : Prop :=
  ∃ ws, store r t (.VT_CONST c) = some ws ∧ ∀ s, ∃ s', runF ws s = some s' ∧
    (∀ k < btype_size t.bt, s'.mem (c + BitVec.ofNat 64 k) = byte (s.read (name r)) k) ∧
      ∀ x ∉ cells c (btype_size t.bt), s'.mem x = s.mem x

/-- The types of an access and the registers it goes through, by the assertions of
    `load` and `store`. -/
def fits (r : Treg) (t : Scalar) : Prop := is_freg r = true ↔ float_or_double t

instance (r : Treg) (t : Scalar) : Decidable (fits r t) := inferInstanceAs (Decidable (_ ↔ _))

theorem run_singleton {w : Word} {s s' : Hart} (h : exec w s = some s') : run [w] s = some s' := by
  rw [run_cons, h, Option.bind_some, run_nil]

theorem load_const_reads {r : Treg} {t : Scalar} (ht : is_scalar t = true) (hr : fits r t) (c : BitVec 64) :
    ∃ ws, load r t (.lval (.VT_CONST c)) = some ws ∧ ∀ s, ∃ s', runF ws s = some s' ∧ s'.mem = s.mem ∧
      s'.read (name r) = register_image t (loadLE s.mem (formed c) (access_size t)) := by
  obtain ⟨pre, imm, base, hpre, himm, hsum, hrun⟩ := const_address_run (rr_ne_zero r) c
  obtain ⟨w, hw⟩ : ∃ w, EI (if is_freg r then 0x07 else 0x03) (load_func3 t) (rr r) (rr r) imm = some w :=
    ⟨_, if_pos himm⟩
  refine ⟨pre ++ [w], load_const_address hr.mp hpre hw, fun s => ?_⟩
  obtain ⟨s₁, hrun₁, hset⟩ := hrun s.toHart
  rw [runF_append, runF_of_run hrun₁, Option.bind_some]
  by_cases hfreg : is_freg r = true
  · rw [if_pos hfreg] at hw
    have hireg : is_ireg r = false := by
      rw [is_freg_eq] at hfreg
      simpa using hfreg
    have hv := floatValue_image (hr.mp hfreg) s₁.mem (s₁.get (rr r) + imm.signExtend 64)
    refine ⟨_, by rw [runF_cons, execF_load hw (s := s.withHart s₁) hv, Option.bind_some, runF_nil], hset.mem, ?_⟩
    rw [name_of_freg hireg, hset.value, hsum, hset.mem]
    exact Function.update_self _ _ _
  · rw [if_neg hfreg] at hw
    have hireg : is_ireg r = true := by
      rw [is_freg_eq] at hfreg
      simpa using hfreg
    have hfloat : t.bt ≠ VT_FLOAT := fun hbt => hfreg (hr.mpr (Or.inl hbt))
    obtain ⟨heq, himmI⟩ := immI_EI hw
    have hv := loadValue_image ht hfloat s₁.mem (s₁.get (rr r) + imm.signExtend 64)
    have haddr : immI (EIu 0x03#7 (load_func3 t) (rr r) (rr r) imm) = imm.signExtend 64 :=
      (congrArg immI heq).symm.trans himmI
    have hexec : exec w s₁ = some (s₁.set (rr r) (register_image t
        (loadLE s₁.mem (s₁.get (rr r) + imm.signExtend 64) (access_size t)))).next := by
      rw [heq]
      exact exec_load (by rw [haddr]; exact hv)
    refine ⟨_, runF_of_run (run_singleton hexec), hset.mem, ?_⟩
    rw [name_of_ireg hireg]
    refine (Hart.get_set_self s₁ (rr_ne_zero r) _).trans ?_
    rw [hset.value, hsum, hset.mem]

theorem store_const_writes {r : Treg} {t : Scalar} (ht : is_scalar t = true) (hr : fits r t) (c : BitVec 64) :
    ∃ ws, store r t (.VT_CONST c) = some ws ∧ ∀ s, ∃ s', runF ws s = some s' ∧
      s'.mem = storeLE s.mem (formed c) (s.read (name r)) (access_size t) := by
  have hadmits : store_admits r t := by
    intro hfloat
    by_cases hbt : t.bt = VT_LDOUBLE
    · exact Or.inl hbt
    · refine Or.inr (hr.mpr ?_)
      obtain ⟨bt, u⟩ := t
      cases bt <;> simp_all [is_float, float_or_double]
  obtain ⟨pre, imm, base, hpre, himm, hsum, hrun⟩ := const_address_run (d := 8) (by decide) c
  obtain ⟨w, hw⟩ : ∃ w, ES (store_opcode r) (store_func3 t) 8 (rr r) imm = some w := ⟨_, if_pos himm⟩
  have hsize : 2 ^ (store_func3 t).toNat = access_size t := by
    obtain ⟨bt, u⟩ := t
    revert ht
    cases bt <;> cases u <;> decide
  refine ⟨pre ++ [w], store_const_address ht hadmits hpre hw, fun s => ?_⟩
  obtain ⟨s₁, hrun₁, hset⟩ := hrun s.toHart
  rw [runF_append, runF_of_run hrun₁, Option.bind_some]
  unfold store_opcode at hw
  by_cases hfreg : is_freg r = true
  · rw [if_pos hfreg] at hw
    have hireg : is_ireg r = false := by
      rw [is_freg_eq] at hfreg
      simpa using hfreg
    have hfunc : store_func3 t = 2#3 ∨ store_func3 t = 3#3 := by
      obtain ⟨bt, u⟩ := t
      obtain rfl | rfl : bt = VT_FLOAT ∨ bt = VT_DOUBLE := hr.mp hfreg
      · exact Or.inl rfl
      · exact Or.inr rfl
    refine ⟨_, by rw [runF_cons, execF_store hw hfunc (s.withHart s₁), Option.bind_some, runF_nil], ?_⟩
    change storeLE s₁.mem (s₁.get 8 + imm.signExtend 64) (s.f (rr r)) _ = _
    rw [hset.value, hsum, hset.mem, hsize, name_of_freg hireg]
    rfl
  · rw [if_neg hfreg] at hw
    have hireg : is_ireg r = true := by
      rw [is_freg_eq] at hfreg
      simpa using hfreg
    refine ⟨_, runF_of_run (run_singleton (exec_store hw (store_func3_lt t) s₁)), ?_⟩
    change storeLE s₁.mem (s₁.get 8 + imm.signExtend 64) (s₁.get (rr r)) _ = _
    rw [hset.value, hsum, hset.mem, hsize, name_of_ireg hireg, hset.frame _ (rr_ne_eight r)]
    rfl

/-- The constant addresses and the types that `load` and `store` get right: a `long double`
    has more bytes than one register. -/
def accessible (t : Scalar) (c : BitVec 64) : Prop := t.bt ≠ VT_LDOUBLE ∧ address_fits c

/-- A memory of zeros but for one byte. -/
def one_at (c : BitVec 64) : BitVec 64 → BitVec 8 := fun x => if x = c then 1#8 else 0#8

theorem formed_ne {c : BitVec 64} (h : ¬ address_fits c) : formed c ≠ c := by
  rw [formed, if_neg h]
  intro heq
  have hzero : 0x100000000#64 = 0#64 := by
    rw [BitVec.sub_eq_iff_eq_add] at heq
    exact BitVec.self_eq_add_right.mp heq
  exact absurd hzero (by decide)

theorem access_size_pos {t : Scalar} (ht : is_scalar t = true) : 0 < access_size t ∧ access_size t ≤ 8 := by
  obtain ⟨bt, u⟩ := t
  revert ht
  cases bt <;> cases u <;> decide

theorem access_size_eq {t : Scalar} (h : t.bt ≠ VT_LDOUBLE) : access_size t = btype_size t.bt := if_neg h

theorem reads_iff {r : Treg} {t : Scalar} (ht : is_scalar t = true) (hr : fits r t) (c : BitVec 64) :
    Reads r t c ↔ accessible t c := by
  obtain ⟨ws, hws, hrun⟩ := load_const_reads ht hr c
  obtain ⟨hpos, hle⟩ := access_size_pos ht
  constructor
  · rintro ⟨ws', hws', hreads⟩
    obtain rfl := Option.some.inj (hws.symm.trans hws')
    have hbytes (mem : BitVec 64 → BitVec 8) {k : Nat} (hk : k < btype_size t.bt) :
        byte (register_image t (loadLE mem (formed c) (access_size t))) k = mem (c + BitVec.ofNat 64 k) := by
      obtain ⟨s₁, hrun₁, -, hval⟩ := hrun ⟨⟨fun _ => 0#64, mem, 0#64⟩, fun _ => 0#64⟩
      obtain ⟨s₂, hrun₂, -, hread, -⟩ := hreads ⟨⟨fun _ => 0#64, mem, 0#64⟩, fun _ => 0#64⟩
      obtain rfl := Option.some.inj (hrun₁.symm.trans hrun₂)
      rw [← hval]
      exact hread k hk
    have hbt : t.bt ≠ VT_LDOUBLE := by
      intro hbt
      have hbyte := hbytes (one_at (c + 8#64)) (k := 8) (by rw [hbt]; decide)
      have hhigh (v : BitVec 64) : byte v 8 = 0#8 := by
        rw [byte, BitVec.ushiftRight_eq_zero (by decide)]
        rfl
      rw [hhigh, one_at, if_pos rfl] at hbyte
      exact absurd hbyte (by decide)
    refine ⟨hbt, ?_⟩
    by_contra hfits
    rw [access_size_eq hbt] at hpos hle
    have hbyte := hbytes (one_at c) (k := 0) hpos
    rw [byte_register_image t _ (by rw [access_size_eq hbt]; exact hpos),
      byte_loadLE _ _ (by rw [access_size_eq hbt]; exact hpos) (by rw [access_size_eq hbt]; exact hle),
      BitVec.add_zero, BitVec.add_zero, one_at, one_at, if_pos rfl, if_neg (formed_ne hfits)] at hbyte
    exact absurd hbyte (by decide)
  · rintro ⟨hbt, hfits⟩
    refine ⟨ws, hws, fun s => ?_⟩
    obtain ⟨s', hs', hmem, hval⟩ := hrun s
    refine ⟨s', hs', hmem, fun k hk => ?_, by rw [hval, register_image_idem ht]⟩
    rw [← access_size_eq hbt] at hk
    rw [hval, byte_register_image t _ hk, byte_loadLE _ _ hk hle, formed, if_pos hfits]

/-- What lies behind the object, or at it when the address is formed wrong, is not written. -/
theorem notMem_formed {c : BitVec 64} {j n : Nat} (hn : n ≤ 8) (hj : j = 8 ∨ (j = 0 ∧ ¬ address_fits c)) :
    c + BitVec.ofNat 64 j ∉ cells (formed c) n := by
  rintro ⟨k, hk, heq⟩
  have hnat := congrArg BitVec.toNat heq
  have hlt := c.isLt
  rw [formed] at hnat
  obtain rfl | ⟨rfl, hfits⟩ := hj
  · split at hnat
    · rw [BitVec.toNat_add, BitVec.toNat_add, BitVec.toNat_ofNat, BitVec.toNat_ofNat] at hnat
      omega
    · rw [BitVec.toNat_add, BitVec.toNat_add, BitVec.toNat_sub, BitVec.toNat_ofNat, BitVec.toNat_ofNat,
        BitVec.toNat_ofNat] at hnat
      omega
  · rw [if_neg hfits, BitVec.toNat_add, BitVec.toNat_add, BitVec.toNat_sub, BitVec.toNat_ofNat,
      BitVec.toNat_ofNat, BitVec.toNat_ofNat] at hnat
    omega

theorem writes_iff {r : Treg} {t : Scalar} (ht : is_scalar t = true) (hr : fits r t) (c : BitVec 64) :
    Writes r t c ↔ accessible t c := by
  obtain ⟨ws, hws, hrun⟩ := store_const_writes ht hr c
  obtain ⟨hpos, hle⟩ := access_size_pos ht
  constructor
  · rintro ⟨ws', hws', hwrites⟩
    obtain rfl := Option.some.inj (hws.symm.trans hws')
    obtain ⟨s₁, hrun₁, hmem⟩ := hrun ⟨⟨fun _ => 0#64, fun _ => 1#8, 0#64⟩, fun _ => 0#64⟩
    obtain ⟨s₂, hrun₂, hwrite, -⟩ := hwrites ⟨⟨fun _ => 0#64, fun _ => 1#8, 0#64⟩, fun _ => 0#64⟩
    obtain rfl := Option.some.inj (hrun₁.symm.trans hrun₂)
    have hkept {j : Nat} (hj : j = 8 ∨ (j = 0 ∧ ¬ address_fits c)) (hlt : j < btype_size t.bt) : False := by
      have hbyte := hwrite j hlt
      rw [hmem, storeLE_of_notMem (notMem_formed hle hj)] at hbyte
      have hzero : (FHart.read ⟨⟨fun _ => 0#64, fun _ => 1#8, 0#64⟩, fun _ => 0#64⟩ (name r)) = 0#64 := by
        cases name r with
        | x q => simp [FHart.read, Hart.get]
        | f q => rfl
      rw [hzero, byte, BitVec.zero_ushiftRight] at hbyte
      exact absurd (show 1#8 = 0#8 from hbyte) (by decide)
    have hbt : t.bt ≠ VT_LDOUBLE := fun hbt => hkept (Or.inl rfl) (by rw [hbt]; decide)
    refine ⟨hbt, ?_⟩
    by_contra hfits
    rw [access_size_eq hbt] at hpos
    exact hkept (Or.inr ⟨rfl, hfits⟩) hpos
  · rintro ⟨hbt, hfits⟩
    refine ⟨ws, hws, fun s => ?_⟩
    obtain ⟨s', hs', hmem⟩ := hrun s
    rw [formed, if_pos hfits] at hmem
    rw [← access_size_eq hbt]
    refine ⟨s', hs', fun k hk => ?_, fun x hx => ?_⟩
    · rw [hmem, byte_storeLE _ _ _ hk hle]
    · rw [hmem, storeLE_of_notMem hx]

/-- Exactly the bytes of the type at the constant address are read and written: not at the
    addresses from `0x7ffff800` to `0xffffffff`, and not where a lower word from
    `0x7ff80000` on is rounded over. -/
theorem constant_access_iff (r : Treg) {t : Scalar} (ht : is_scalar t = true) (hr : fits r t) (c : BitVec 64) :
    (Reads r t c ↔ accessible t c) ∧ (Writes r t c ↔ accessible t c) :=
  ⟨reads_iff ht hr c, writes_iff ht hr c⟩

theorem constant_access_uart : (Reads 0 .int 0x10000000#64 ↔ accessible .int 0x10000000#64) ∧
    (Writes 0 .int 0x10000000#64 ↔ accessible .int 0x10000000#64) :=
  constant_access_iff 0 rfl (by decide) _

/-- The memory from `0x80000000` on is not reached. -/
theorem ram_not_accessed : ¬ (Reads 0 .int 0x80000000#64 ∧ Writes 0 .int 0x80000000#64) := by
  rw [reads_iff rfl (by decide)]
  rintro ⟨⟨-, hfits⟩, -⟩
  exact absurd hfits (by decide)

end tcc.riscv64.treg
