import Tcc.Gen.Riscv32.OplWords

/-! The runs of `gen_opl`. -/

namespace tcc.riscv32

open tcc.Op BType

/-- The entries of the low and of the high word of a `long long`. -/
def Held.low (v : Held) : Held :=
  match v with
  | .pair lo _ => .word lo
  | v => v

def Held.high (v : Held) : Held :=
  match v with
  | .const c => .const (c >>> 32)
  | .pair _ hi => .word hi
  | v => v

/-- A `long long` operand: a constant, or in two words. -/
def Held.Wide (v : Held) : Prop :=
  match v with
  | .const _ | .pair _ _ => True
  | _ => False

/-- The type of the words. -/
def word_type (t : Scalar) : Scalar := ⟨VT_INT, t.unsigned⟩

theorem Held.Wide.low {v : Held} (hv : v.Wide) : v.low.Loadable := by
  cases v <;> first | exact trivial | exact absurd hv id

theorem Held.Wide.high {v : Held} (hv : v.Wide) : v.high.Loadable := by
  cases v <;> first | exact trivial | exact absurd hv id

attribute [local simp] vcheck_cmp in
theorem vcheck_cmp_of_loadable {t : Scalar} {v : Held} (hv : v.Loadable) (rest : List Entry) :
    vcheck_cmp (⟨t, v⟩ :: rest) = some (⟨t, v⟩ :: rest) := by
  cases v <;> first | rfl | exact absurd hv id

theorem vcheck_cmp_of_wide {t : Scalar} {v : Held} (hv : v.Wide) (rest : List Entry) :
    vcheck_cmp (⟨t, v⟩ :: rest) = some (⟨t, v⟩ :: rest) := by
  cases v <;> first | rfl | exact absurd hv id

section

variable {cmd : Cmd} {cmds : List Cmd} {st st' rest : List Entry} {js : List (Chain × Bool)} {s' : State}

attribute [local simp] moves in
/-- A call that only moves entries. -/
theorem steps_move (hstep : ∀ s s', Step cmd s s' ↔
      ∃ vstack, moves cmd s.vstack = some vstack ∧ s' = { s with vstack := vstack })
    (hmoves : moves cmd st = some st') : Steps (cmd :: cmds) ⟨st, js⟩ s' ↔ Steps cmds ⟨st', js⟩ s' := by
  simp only [Steps, hstep, hmoves, Option.some.injEq]
  constructor
  · rintro ⟨s₁, ⟨vstack, rfl, rfl⟩, hsteps⟩
    exact hsteps
  · intro hsteps
    exact ⟨_, ⟨_, rfl, rfl⟩, hsteps⟩

variable {p q r : Entry}

theorem steps_vswap (hcheck : vcheck_cmp (q :: p :: rest) = some (q :: p :: rest)) :
    Steps (.vswap :: cmds) ⟨q :: p :: rest, js⟩ s' ↔ Steps cmds ⟨p :: q :: rest, js⟩ s' := by
  refine steps_move (fun _ _ => Iff.rfl) ?_
  simp [moves, hcheck]

theorem steps_vrotb (hcheck : vcheck_cmp (r :: q :: p :: rest) = some (r :: q :: p :: rest)) :
    Steps (.vrotb 3 :: cmds) ⟨r :: q :: p :: rest, js⟩ s' ↔
      Steps cmds ⟨p :: r :: q :: rest, js⟩ s' := by
  refine steps_move (fun _ _ => Iff.rfl) ?_
  simp [moves, vrotb, hcheck]

theorem steps_exchange {i j : Nat} (hexchange : exchange i j st = some st') :
    Steps (.exchange i j :: cmds) ⟨st, js⟩ s' ↔ Steps cmds ⟨st', js⟩ s' :=
  steps_move (fun _ _ => Iff.rfl) hexchange

theorem steps_lexpand {t : Scalar} {v : Held} (hv : v.Wide) :
    Steps (.lexpand :: cmds) ⟨⟨t, v⟩ :: rest, js⟩ s' ↔
      Steps cmds ⟨⟨word_type t, v.high⟩ :: ⟨word_type t, v.low⟩ :: rest, js⟩ s' := by
  refine steps_move (fun _ _ => Iff.rfl) ?_
  cases v <;> first | rfl | exact absurd hv id

theorem steps_vpushi {v : Int} (hcheck : vcheck_cmp st = some st) :
    Steps (.vpushi v :: cmds) ⟨st, js⟩ s' ↔
      Steps cmds ⟨⟨.int, .const (BitVec.ofInt 64 v)⟩ :: st, js⟩ s' := by
  refine steps_move (fun _ _ => Iff.rfl) ?_
  simp [moves, hcheck]

/-- `gen_op` with the results it may have. -/
theorem steps_gen_op {op : Op} :
    Steps (.gen_op op :: cmds) ⟨q :: p :: rest, js⟩ s' ↔
      ∃ e, GenOp op p q e ∧ Steps cmds ⟨e :: rest, js⟩ s' := by
  constructor
  · rintro ⟨s₁, ⟨e1, e2, rest', e, heq, hgen, rfl⟩, hsteps⟩
    cases heq
    exact ⟨e, hgen, hsteps⟩
  · rintro ⟨e, hgen, hsteps⟩
    exact ⟨_, ⟨p, q, rest, e, rfl, hgen, rfl⟩, hsteps⟩

theorem steps_gv_dup {t : Scalar} {x : BitVec 32} :
    Steps (.gv_dup :: cmds) ⟨⟨t, .word x⟩ :: rest, js⟩ s' ↔
      Steps cmds ⟨⟨t, .word x⟩ :: ⟨t, .word x⟩ :: rest, js⟩ s' := by
  constructor
  · rintro ⟨s₁, ⟨e, rest', y, heq, hload, rfl⟩, hsteps⟩
    cases heq
    cases hload
    exact hsteps
  · intro hsteps
    exact ⟨_, ⟨_, _, x, rfl, rfl, rfl⟩, hsteps⟩

theorem steps_lbuild {t : Scalar} (hp : p.held.Loadable) (hq : q.held.Loadable) :
    Steps [.lbuild t] ⟨q :: p :: rest, js⟩ s' ↔
      s' = ⟨⟨t, .pair p.held.got q.held.got⟩ :: rest, js⟩ := by
  constructor
  · rintro ⟨s₁, ⟨e1, e2, rest', lo, hi, heq, hlo, hhi, rfl⟩, hsteps⟩
    cases heq
    rw [loadsWord_iff hp] at hlo
    rw [loadsWord_iff hq] at hhi
    subst hlo hhi
    exact hsteps
  · rintro rfl
    exact ⟨_, ⟨p, q, rest, _, _, rfl, (loadsWord_iff hp).mpr rfl, (loadsWord_iff hq).mpr rfl, rfl⟩, rfl⟩

theorem steps_expand {t : Scalar} {v1 v2 : Held} (hv1 : v1.Wide) (hv2 : v2.Wide) :
    Steps (expand_both ++ cmds) ⟨[⟨t, v2⟩, ⟨t, v1⟩], js⟩ s' ↔
      Steps cmds ⟨[⟨word_type t, v2.high⟩, ⟨word_type t, v2.low⟩, ⟨word_type t, v1.high⟩,
        ⟨word_type t, v1.low⟩], js⟩ s' := by
  simp only [expand_both, List.cons_append, List.nil_append]
  rw [steps_vswap (vcheck_cmp_of_wide hv2 _), steps_lexpand hv1,
    steps_vrotb (vcheck_cmp_of_loadable hv1.high _), steps_lexpand hv2]

end

/-- The branch of `gen_opl` for bitwise operators: what there is in the end. -/
theorem steps_bitwise {op : Op} (hop : op = .and ∨ op = .or ∨ op = .xor) {t : Scalar} {v1 v2 : Held}
    (hv1 : v1.Wide) (hv2 : v2.Wide) (hlow : Operable v1.low v2.low) (hhigh : Operable v1.high v2.high)
    {s : State} : Steps (gen_opl_arith op t) ⟨[⟨t, v2⟩, ⟨t, v1⟩], []⟩ s ↔
      s = ⟨[⟨t, .pair (bitwise_got op v1.low v2.low) (bitwise_got op v1.high v2.high)⟩], []⟩ := by
  have hcmds : gen_opl_arith op t = expand_both ++ [.exchange 0 3, .exchange 2 3, .vswap, .gen_op op,
      .vrotb 3, .vrotb 3, .gen_op op, .lbuild t] := by
    obtain rfl | rfl | rfl := hop <;> rfl
  obtain ⟨w, hw, hgot, hgen⟩ := genOp_bitwise (t := word_type t) hop rfl hlow
  obtain ⟨w', hw', hgot', hgen'⟩ := genOp_bitwise (t := word_type t) hop rfl hhigh
  have hfirst (p q r u : Entry) : exchange 0 3 [p, q, r, u] = some [u, q, r, p] := rfl
  have hsecond (p q r u : Entry) : exchange 2 3 [p, q, r, u] = some [p, q, u, r] := rfl
  rw [hcmds, steps_expand hv1 hv2, steps_exchange (hfirst _ _ _ _), steps_exchange (hsecond _ _ _ _),
    steps_vswap (vcheck_cmp_of_loadable hv1.low _), steps_gen_op]
  simp only [hgen, exists_eq_left]
  rw [steps_vrotb (vcheck_cmp_of_loadable hw _), steps_vrotb (vcheck_cmp_of_loadable hv1.high _),
    steps_gen_op]
  simp only [hgen', exists_eq_left]
  rw [steps_lbuild hw hw', hgot, hgot']

/-- The results of a shift of a word by a constant, as the code does it. -/
def Shifts (op : Op) (x : BitVec 32) (n : Nat) (z : BitVec 32) : Prop :=
  if op = TOK_SAR then ∃ m < 32, (n = 0 → m = 0) ∧ z = x.sshiftRight m
  else z = op.alu x (BitVec.ofNat 32 n)

theorem genOp_shifts {op : Op} (hop : op.isShift = true) {t : Scalar} (ht : t.bt = VT_INT)
    (hu : op = TOK_SAR → t.unsigned = false) (x : BitVec 32) {n : Nat} (hn : n ≤ 32)
    (hsar : op = TOK_SAR → n < 32) (e : Entry) :
    GenOp op ⟨t, .word x⟩ ⟨.int, .const (BitVec.ofNat 64 n)⟩ e ↔ ∃ z, Shifts op x n z ∧ e = ⟨t, .word z⟩ := by
  unfold Shifts
  by_cases hs : op = TOK_SAR
  · subst hs
    rw [genOp_sar ht (hu rfl) x (hsar rfl)]
    simp only [if_true]
    constructor
    · rintro ⟨m, hm, hm0, rfl⟩
      exact ⟨_, ⟨m, hm, hm0, rfl⟩, rfl⟩
    · rintro ⟨z, ⟨m, hm, hm0, rfl⟩, rfl⟩
      exact ⟨m, hm, hm0, rfl⟩
  · have hop' : op = TOK_SHL ∨ op = TOK_SHR := by
      obtain rfl | rfl | rfl := isShift_cases hop
      · exact Or.inl rfl
      · exact Or.inr rfl
      · exact absurd rfl hs
    rw [genOp_shift hop' ht x hn]
    simp [hs]

/-- The shift of two words by less than 32: `a` gives its bits to `b`. -/
theorem steps_shift_core {op opp opd : Op} (hop : op.isShift = true) (hopp : opp = TOK_SHL ∨ opp = TOK_SHR)
    (hopd : opd = TOK_SHL ∨ opd = TOK_SHR) {t : Scalar} (ht : t.bt = VT_INT)
    (hu : op = TOK_SAR → t.unsigned = false) {n : Nat} (hn : n < 32) {a b : BitVec 32} {cmds : List Cmd}
    {s : State} :
    Steps ([.vswap, .gv_dup, .vpushi n, .gen_op op, .vswap, .vpushi (32 - n), .gen_op opp, .vrotb 3,
      .vpushi n, .gen_op opd, .gen_op .or] ++ cmds) ⟨[⟨t, .word b⟩, ⟨t, .word a⟩], []⟩ s ↔
      ∃ z, Shifts op a n z ∧ Steps cmds ⟨[⟨t, .word (opp.alu a (BitVec.ofNat 32 (32 - n)) |||
        opd.alu b (BitVec.ofNat 32 n))⟩, ⟨t, .word z⟩], []⟩ s := by
  have hcount (k : Nat) : BitVec.ofInt 64 (k : Int) = BitVec.ofNat 64 k := BitVec.ofInt_natCast 64 k
  have hrest : (32 : Int) - n = ((32 - n : Nat) : Int) := by omega
  simp only [List.cons_append, List.nil_append]
  rw [steps_vswap rfl, steps_gv_dup, steps_vpushi rfl, hcount, steps_gen_op]
  have htail (z : BitVec 32) :
      Steps (.vswap :: .vpushi (32 - n) :: .gen_op opp :: .vrotb 3 :: .vpushi n :: .gen_op opd ::
        .gen_op .or :: cmds) ⟨[⟨t, .word z⟩, ⟨t, .word a⟩, ⟨t, .word b⟩], []⟩ s ↔
      Steps cmds ⟨[⟨t, .word (opp.alu a (BitVec.ofNat 32 (32 - n)) ||| opd.alu b (BitVec.ofNat 32 n))⟩,
        ⟨t, .word z⟩], []⟩ s := by
    rw [steps_vswap rfl, steps_vpushi rfl, hrest, hcount, steps_gen_op]
    simp only [genOp_shift hopp ht a (Nat.sub_le 32 n), exists_eq_left]
    rw [steps_vrotb rfl, steps_vpushi rfl, hcount, steps_gen_op]
    simp only [genOp_shift hopd ht b hn.le, exists_eq_left]
    rw [steps_gen_op]
    simp only [genOp_bitwise_words (Or.inr (Or.inl rfl)) ht, exists_eq_left]
    rfl
  simp only [genOp_shifts hop ht hu a hn.le (fun _ => hn)]
  constructor
  · rintro ⟨e, ⟨z, hz, rfl⟩, hsteps⟩
    exact ⟨z, hz, (htail z).mp hsteps⟩
  · rintro ⟨z, hz, hsteps⟩
    exact ⟨_, ⟨z, hz, rfl⟩, (htail z).mpr hsteps⟩

/-- The words of a shift by a constant: `a` is the one that bits are shifted out of, `p` and `q` are
    what comes in its place and in that of `b`. -/
def ShiftsTwo (op : Op) (a b : BitVec 32) (n : Nat) (p q : BitVec 32) : Prop :=
  if n < 32 then
    Shifts op a n p ∧ q = if op = TOK_SHL then a >>> ((32 - n) % 32) ||| b <<< n else a <<< ((32 - n) % 32) ||| b >>> n
  else Shifts op a (n - 32) q ∧ if op = TOK_SAR then Shifts op q 31 p else p = 0#32

theorem Shifts.zero_iff {op : Op} (hop : op.isShift = true) {x z : BitVec 32} : Shifts op x 0 z ↔ z = x := by
  unfold Shifts
  obtain rfl | rfl | rfl := isShift_cases hop
  · simp [Op.alu]
  · simp [Op.alu]
  · rw [if_pos rfl]
    constructor
    · rintro ⟨m, -, hm, rfl⟩
      rw [hm rfl, BitVec.sshiftRight_zero]
    · rintro rfl
      exact ⟨0, by decide, fun _ => rfl, BitVec.sshiftRight_zero.symm⟩

section

variable {op : Op} {t : Scalar} {n : Nat} {a b : BitVec 32} {cmds : List Cmd} {s : State}

/-- The shift of two words by less than 32. -/
theorem steps_shift_small (hop : op.isShift = true) (ht : t.bt = VT_INT) (hu : op = TOK_SAR → t.unsigned = false)
    (hn : n < 32) : Steps ([.vswap, .gv_dup, .vpushi n, .gen_op op, .vswap, .vpushi (32 - n),
      .gen_op (if op = TOK_SHL then TOK_SHR else TOK_SHL), .vrotb 3, .vpushi n,
      .gen_op (if op = TOK_SHL then TOK_SHL else TOK_SHR), .gen_op .or] ++ cmds)
        ⟨[⟨t, .word b⟩, ⟨t, .word a⟩], []⟩ s ↔
      ∃ p q, ShiftsTwo op a b n p q ∧ Steps cmds ⟨[⟨t, .word q⟩, ⟨t, .word p⟩], []⟩ s := by
  have hmod : n % 32 = n := Nat.mod_eq_of_lt hn
  simp only [ShiftsTwo, if_pos hn]
  by_cases hs : op = TOK_SHL
  · subst hs
    simp only [if_true]
    rw [steps_shift_core hop (Or.inr rfl) (Or.inl rfl) ht hu hn]
    simp [Op.alu, hmod]
  · simp only [if_neg hs]
    rw [steps_shift_core hop (Or.inl rfl) (Or.inr rfl) ht hu hn]
    simp [Op.alu, hmod]

/-- The entry in the place of the word that bits are shifted out of. -/
def shift_fill (op : Op) (t : Scalar) (n : Nat) (p : BitVec 32) : Entry :=
  if n < 32 ∨ op = TOK_SAR then ⟨t, .word p⟩ else ⟨.int, .const 0#64⟩

theorem shift_fill_loadable (op : Op) (t : Scalar) (n : Nat) (p : BitVec 32) :
    (shift_fill op t n p).held.Loadable := by
  unfold shift_fill
  split <;> trivial

theorem ShiftsTwo.fill_got {op : Op} {a b p q : BitVec 32} {n : Nat} (hshift : ShiftsTwo op a b n p q)
    (t : Scalar) : (shift_fill op t n p).held.got = p := by
  unfold shift_fill
  split
  · rfl
  · rename_i hlarge
    rw [not_or] at hlarge
    unfold ShiftsTwo at hshift
    rw [if_neg hlarge.1, if_neg hlarge.2] at hshift
    exact hshift.2.symm

/-- The shift of two words by 32 and more. -/
theorem steps_shift_large (hop : op.isShift = true) (ht : t.bt = VT_INT) (hu : op = TOK_SAR → t.unsigned = false)
    (hn : 32 ≤ n) (hn64 : n < 64) : Steps ([.vpop] ++
      (if (32 : Int) < n then [.vpushi (n - 32), .gen_op op] else []) ++
      (if op = TOK_SAR then [.gv_dup, .vpushi 31, .gen_op TOK_SAR] else [.vpushi 0]) ++ [.vswap] ++ cmds)
        ⟨[⟨t, .word b⟩, ⟨t, .word a⟩], []⟩ s ↔
      ∃ p q, ShiftsTwo op a b n p q ∧ Steps cmds ⟨[⟨t, .word q⟩, shift_fill op t n p], []⟩ s := by
  have hsub : (n : Int) - 32 = ((n - 32 : Nat) : Int) := by omega
  have hcount : BitVec.ofInt 64 ((n - 32 : Nat) : Int) = BitVec.ofNat 64 (n - 32) := BitVec.ofInt_natCast 64 _
  have hfirst {cmds : List Cmd} : Steps ([.vpop] ++
      (if (32 : Int) < n then [.vpushi (n - 32), .gen_op op] else []) ++ cmds)
        ⟨[⟨t, .word b⟩, ⟨t, .word a⟩], []⟩ s ↔
      ∃ q, Shifts op a (n - 32) q ∧ Steps cmds ⟨[⟨t, .word q⟩], []⟩ s := by
    rw [List.append_assoc, List.singleton_append, steps_move (fun _ _ => Iff.rfl) rfl]
    split
    · rw [List.cons_append, steps_vpushi rfl, hsub, hcount, List.singleton_append, steps_gen_op]
      simp only [genOp_shifts hop ht hu a (by omega : n - 32 ≤ 32) fun _ => by omega]
      constructor
      · rintro ⟨e, ⟨z, hz, rfl⟩, hsteps⟩
        exact ⟨z, hz, hsteps⟩
      · rintro ⟨z, hz, hsteps⟩
        exact ⟨_, ⟨z, hz, rfl⟩, hsteps⟩
    · have h32 : n - 32 = 0 := by omega
      rw [h32]
      simp only [Shifts.zero_iff hop, exists_eq_left]
      rfl
  have hfill {q : BitVec 32} : Steps ((if op = TOK_SAR then [.gv_dup, .vpushi 31, .gen_op TOK_SAR]
      else [.vpushi 0]) ++ ([.vswap] ++ cmds)) ⟨[⟨t, .word q⟩], []⟩ s ↔
      ∃ p, (if op = TOK_SAR then Shifts op q 31 p else p = 0#32) ∧
        Steps cmds ⟨[⟨t, .word q⟩, shift_fill op t n p], []⟩ s := by
    simp only [shift_fill, or_iff_right (not_lt.mpr hn)]
    by_cases hs : op = TOK_SAR
    · subst hs
      simp only [if_true, List.cons_append, List.nil_append]
      rw [steps_gv_dup, steps_vpushi rfl, show BitVec.ofInt 64 31 = BitVec.ofNat 64 31 from rfl, steps_gen_op]
      simp only [genOp_shifts hop ht hu q (by decide : 31 ≤ 32) fun _ => by decide]
      constructor
      · rintro ⟨e, ⟨z, hz, rfl⟩, hsteps⟩
        rw [steps_vswap rfl] at hsteps
        exact ⟨z, hz, hsteps⟩
      · rintro ⟨z, hz, hsteps⟩
        refine ⟨_, ⟨z, hz, rfl⟩, ?_⟩
        rw [steps_vswap rfl]
        exact hsteps
    · simp only [if_neg hs, List.cons_append, List.nil_append, exists_eq_left]
      rw [steps_vpushi rfl, steps_vswap rfl]
      rfl
  rw [List.append_assoc, List.append_assoc, hfirst]
  simp only [hfill, ShiftsTwo, if_neg (not_lt.mpr hn)]
  constructor
  · rintro ⟨q, hq, p, hp, hsteps⟩
    exact ⟨p, q, ⟨hq, hp⟩, hsteps⟩
  · rintro ⟨p, q, ⟨hq, hp⟩, hsteps⟩
    exact ⟨q, hq, p, hp, hsteps⟩

end

/-- The shift of two words, with `b` on the top. -/
theorem steps_shift_words {op : Op} (hop : op.isShift = true) {t : Scalar} (ht : t.bt = VT_INT)
    (hu : op = TOK_SAR → t.unsigned = false) {n : Nat} (hn : n < 64) {a b : BitVec 32} {cmds : List Cmd}
    {s : State} : Steps (shift_words op n ++ cmds) ⟨[⟨t, .word b⟩, ⟨t, .word a⟩], []⟩ s ↔
      ∃ p q, ShiftsTwo op a b n p q ∧ Steps cmds ⟨[⟨t, .word q⟩, shift_fill op t n p], []⟩ s := by
  unfold shift_words
  by_cases hsmall : n < 32
  · rw [if_neg (by omega), steps_shift_small hop ht hu hsmall]
    simp only [shift_fill, if_pos (Or.inl hsmall)]
  · rw [if_pos (by omega), steps_shift_large hop ht hu (not_lt.mp hsmall) hn]

/-- The branch of `gen_opl` for a shift by a constant: what there may be in the end. -/
theorem steps_shift {op : Op} (hop : op.isShift = true) {t t2 : Scalar} (hu : op = TOK_SAR → t.unsigned = false)
    {n : Nat} (hn : n < 64) {c : BitVec 64} {lo hi : BitVec 32} {s : State} :
    Steps (gen_opl_shift op t n) ⟨[⟨t2, .const c⟩, ⟨t, .pair lo hi⟩], []⟩ s ↔
      if op = TOK_SHL then ∃ p q, ShiftsTwo op lo hi n p q ∧ s = ⟨[⟨t, .pair p q⟩], []⟩
      else ∃ p q, ShiftsTwo op hi lo n p q ∧ s = ⟨[⟨t, .pair q p⟩], []⟩ := by
  have ht : (word_type t).bt = VT_INT := rfl
  have hwide : (Held.pair lo hi).Wide := trivial
  have hstart {cmds : List Cmd} : Steps ([.vswap, .lexpand, .vrotb 3, .vpop] ++ cmds)
      ⟨[⟨t2, .const c⟩, ⟨t, .pair lo hi⟩], []⟩ s ↔
      Steps cmds ⟨[⟨word_type t, .word hi⟩, ⟨word_type t, .word lo⟩], []⟩ s := by
    simp only [List.cons_append, List.nil_append]
    rw [steps_vswap rfl, steps_lexpand hwide, steps_vrotb rfl, steps_move (fun _ _ => Iff.rfl) rfl]
    rfl
  have hfill {a b p q : BitVec 32} (hshift : ShiftsTwo op a b n p q) :
      (shift_fill op (word_type t) n p).held.Loadable ∧ (shift_fill op (word_type t) n p).held.got = p :=
    ⟨shift_fill_loadable op _ n p, hshift.fill_got _⟩
  have hword (q : BitVec 32) : (Entry.mk (word_type t) (.word q)).held.Loadable := trivial
  unfold gen_opl_shift
  by_cases hs : op = TOK_SHL
  · simp only [if_pos hs, List.append_nil, List.append_assoc]
    rw [hstart, steps_shift_words hop ht hu hn]
    refine exists_congr fun p => exists_congr fun q => and_congr_right fun hshift => ?_
    rw [steps_lbuild (hfill hshift).1 (hword q), (hfill hshift).2]
    rfl
  · simp only [if_neg hs, List.append_assoc]
    rw [hstart, List.singleton_append, steps_vswap rfl, steps_shift_words hop ht hu hn]
    refine exists_congr fun p => exists_congr fun q => and_congr_right fun hshift => ?_
    rw [List.singleton_append, steps_vswap rfl, steps_lbuild (hword q) (hfill hshift).1, (hfill hshift).2]
    rfl

section

variable {cmds : List Cmd} {rest : List Entry} {js : List (Chain × Bool)} {s : State}

/-- The jump after a comparison. -/
theorem steps_gvtst {inv : Bool} {chain : Chain} {t : Scalar} {o : Op} (ho : o.isCmp = true) {x y : BitVec 32} :
    Steps (.gvtst inv chain :: cmds) ⟨⟨t, .cmp o x y [] []⟩ :: rest, js⟩ s ↔
      Steps cmds ⟨rest, js ++ [(chain, o.holds x y != inv)]⟩ s := by
  have hjump {taken : Bool} : Jumps (if inv then o.xor1 else o) x y taken ↔ taken = (o.holds x y != inv) := by
    cases inv with
    | false =>
      rw [if_neg (by decide), jumps_iff ho, Bool.bne_false]
    | true =>
      rw [if_pos rfl, jumps_iff (Op.isCmp_xor1 ho), holds_xor1 ho, Bool.bne_true]
  constructor
  · rintro ⟨s₁, ⟨t', op, p, q, rest', taken, heq, hjumps, rfl⟩, hsteps⟩
    cases heq
    rw [hjump] at hjumps
    subst hjumps
    exact hsteps
  · intro hsteps
    exact ⟨_, ⟨t, o, x, y, rest, _, rfl, hjump.mpr rfl, rfl⟩, hsteps⟩

/-- The end of a comparison, with the low words on the stack. -/
theorem steps_cmp_low (js : List (Chain × Bool)) {op : Op} (hop : op.isCmp = true) {t : Scalar}
    (ht : t.bt = VT_INT) (hsigned : op.signed = true → t.unsigned = false) {v1 v2 : Held} (hv : Operable v1 v2) :
    (∃ s, Steps [.gen_op op, .gvtst_set true .a, .gvtst_set false .b] ⟨[⟨t, v2⟩, ⟨t, v1⟩], js⟩ s) ∧
      ∀ s, Steps [.gen_op op, .gvtst_set true .a, .gvtst_set false .b] ⟨[⟨t, v2⟩, ⟨t, v1⟩], js⟩ s →
        s.value? = (decided js [.b] [.a] (op.holds v1.got v2.got)).map boolWord := by
  obtain ⟨⟨e, hgen⟩, hmeans⟩ := genOp_cmp hop hsigned ht hv
  constructor
  · obtain ⟨o, p, q, rfl, -, -⟩ := hmeans e hgen
    refine ⟨⟨[⟨.int, .cmp o p q [.b] [.a]⟩], js⟩, ?_⟩
    rw [steps_gen_op]
    refine ⟨_, hgen, ?_⟩
    rw [steps_move (fun _ _ => Iff.rfl) rfl, steps_move (fun _ _ => Iff.rfl) rfl]
    rfl
  · intro s hsteps
    rw [steps_gen_op] at hsteps
    obtain ⟨e, hgen, hsteps⟩ := hsteps
    obtain ⟨o, p, q, rfl, -, hholds⟩ := hmeans e hgen
    rw [steps_move (fun _ _ => Iff.rfl) rfl, steps_move (fun _ _ => Iff.rfl) rfl] at hsteps
    cases hsteps
    rw [← hholds]
    rfl

end

/-- The jumps between the comparisons, after one of the high words that is `t`. -/
def cmp_jumps (op : Op) (t : Bool) : List (Chain × Bool) :=
  if op = TOK_NE then [(.b, t)] else (.a, !t) :: if op = TOK_EQ then [] else [(.b, false)]

theorem decided_cmp_jumps (op : Op) (t l : Bool) :
    decided (cmp_jumps op t) [.b] [.a] l = some (if op = TOK_NE then t || l else t && l) := by
  unfold cmp_jumps decided
  by_cases hne : op = TOK_NE
  · rw [if_pos hne, if_pos hne]
    cases t <;> rfl
  · rw [if_neg hne, if_neg hne]
    by_cases heq : op = TOK_EQ
    · rw [if_pos heq]
      cases t <;> rfl
    · rw [if_neg heq]
      cases t <;> rfl

theorem steps_cmp_jumps {op o : Op} (ho : o.isCmp = true) {t : Scalar} {x y : BitVec 32} {cmds : List Cmd}
    {p : Entry} {rest : List Entry} (hcheck : vcheck_cmp (p :: rest) = some (p :: rest)) {s : State} :
    Steps ((if op = TOK_NE then [.gvtst false .b]
      else .gvtst true .a ::
        (if op = TOK_EQ then [] else [.vpushi 0, .vset_VT_CMP TOK_NE, .gvtst false .b])) ++ cmds)
        ⟨⟨t, .cmp o x y [] []⟩ :: p :: rest, []⟩ s ↔
      Steps cmds ⟨p :: rest, cmp_jumps op (o.holds x y)⟩ s := by
  unfold cmp_jumps
  by_cases hne : op = TOK_NE
  · rw [if_pos hne, if_pos hne, List.singleton_append, steps_gvtst ho, Bool.bne_false]
    rfl
  · rw [if_neg hne, if_neg hne, List.cons_append, steps_gvtst ho, Bool.bne_true]
    split
    · rfl
    · simp only [List.cons_append, List.nil_append]
      rw [steps_vpushi hcheck, steps_move (fun _ _ => Iff.rfl) rfl, steps_gvtst rfl]
      rfl

/-- What the code of a comparison finds. -/
def cmp_result (op : Op) (h1 h2 l1 l2 : BitVec 32) : Bool :=
  if op = TOK_NE then (high_op op).holds h1 h2 || (low_op op).holds l1 l2
  else (high_op op).holds h1 h2 && (low_op op).holds l1 l2

/-- The branch of `gen_opl` for comparisons. The jump that should be taken when the high words
    differ compares `x0` with itself. -/
theorem steps_cmp {op : Op} (hop : op.isCmp = true) {t : Scalar} (hsigned : op.signed = true → t.unsigned = false)
    {v1 v2 : Held} (hv1 : v1.Wide) (hv2 : v2.Wide) (hlow : Operable v1.low v2.low)
    (hhigh : Operable v1.high v2.high) :
    (∃ s, Steps (gen_opl_cmp op) ⟨[⟨t, v2⟩, ⟨t, v1⟩], []⟩ s) ∧
      ∀ s, Steps (gen_opl_cmp op) ⟨[⟨t, v2⟩, ⟨t, v1⟩], []⟩ s →
        s.value? = some (boolWord (cmp_result op v1.high.got v2.high.got v1.low.got v2.low.got)) := by
  have ht : (word_type t).bt = VT_INT := rfl
  have hops : (high_op op).isCmp = true ∧ ((high_op op).signed = true → t.unsigned = false) ∧
      (low_op op).isCmp = true ∧ ((low_op op).signed = true → t.unsigned = false) := by
    cases op <;> first | exact ⟨rfl, hsigned, rfl, hsigned⟩ | exact ⟨rfl, hsigned, rfl, nofun⟩ | cases hop
  obtain ⟨hcmp, hsigned, hcmp', hsigned'⟩ := hops
  obtain ⟨⟨e, hgen⟩, hmeans⟩ := genOp_cmp (t := word_type t) hcmp hsigned ht hhigh
  have hstart {s : State} : Steps (gen_opl_cmp op) ⟨[⟨t, v2⟩, ⟨t, v1⟩], []⟩ s ↔
      ∃ e, GenOp (high_op op) ⟨word_type t, v1.high⟩ ⟨word_type t, v2.high⟩ e ∧
        Steps [.gen_op (low_op op), .gvtst_set true .a, .gvtst_set false .b]
          ⟨[⟨word_type t, v2.low⟩, ⟨word_type t, v1.low⟩],
            cmp_jumps op ((high_op op).holds v1.high.got v2.high.got)⟩ s := by
    have hexchange (p q r u : Entry) : exchange 1 2 [p, q, r, u] = some [p, r, q, u] := rfl
    unfold gen_opl_cmp
    rw [List.append_assoc, List.append_assoc, steps_expand hv1 hv2]
    simp only [List.cons_append, List.nil_append]
    rw [steps_exchange (hexchange _ _ _ _), steps_move (fun _ _ => Iff.rfl) rfl, steps_gen_op]
    refine exists_congr fun e => and_congr_right fun hgen => ?_
    obtain ⟨o, p, q, rfl, ho, hholds⟩ := hmeans e hgen
    rw [steps_cmp_jumps ho (vcheck_cmp_of_loadable hv2.low _), hholds]
  have hend := steps_cmp_low (cmp_jumps op ((high_op op).holds v1.high.got v2.high.got)) hcmp' ht
    hsigned' hlow
  constructor
  · obtain ⟨s, hsteps⟩ := hend.1
    exact ⟨s, hstart.mpr ⟨e, hgen, hsteps⟩⟩
  · intro s hsteps
    obtain ⟨e, -, hsteps⟩ := hstart.mp hsteps
    rw [hend.2 s hsteps, decided_cmp_jumps]
    rfl

/-- The operations that use the tokens of carries and of wide products. -/
theorem not_steps_of_gen_op_word {tok : WordTok} {cmds : List Cmd} (hmem : .gen_op_word tok ∈ cmds) {s s' : State} :
    ¬Steps cmds s s' := by
  induction cmds generalizing s with
  | nil => cases hmem
  | cons cmd cmds ih =>
    rintro ⟨s₁, hstep, hsteps⟩
    obtain rfl | hmem := List.mem_cons.mp hmem
    · exact hstep
    · exact ih hmem hsteps

end tcc.riscv32
