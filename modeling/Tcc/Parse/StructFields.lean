import Mathlib.Algebra.Order.Group.Nat
import Mathlib.Data.List.Forall2
import Tcc.Parse.StructLayout

/-! The members of a structure have room of their own. -/

open machine

namespace tcc.layout

section aligning

variable {a x : Nat}

theorem le_align_up (ha : 0 < a) : x ≤ align_up a x := (isLeast_align_up ha x).1.1

theorem dvd_align_up (ha : 0 < a) : a ∣ align_up a x := (isLeast_align_up ha x).1.2

theorem attr_align_cases (k : Nat) : attr_align k = 0 ∨ ∃ j, attr_align k = 2 ^ j := by
  rw [attr_align]
  split
  · exact Or.inl rfl
  · exact Or.inr ⟨k - 1, rfl⟩

theorem BitType.size_le (bt : BitType) : bt.size ≤ 8 := by
  cases bt <;> decide

theorem BitType.size_pos (bt : BitType) : 0 < bt.size := by
  cases bt <;> decide

end aligning

section members

variable {cfg : Config} {m : Member} {l : Loop}

/-- Attributes and packing leave a power of two. -/
theorem member_align_pow (hcfg : cfg.Wf) (hm : m.Wf) : ∃ k, (member_align cfg m).1 = 2 ^ k := by
  obtain ⟨k, hk⟩ := hm.align
  have hattr := attr_align_cases m.aligned
  have hone : ∃ k, (1 : Nat) = 2 ^ k := ⟨0, rfl⟩
  have hpack : cfg.pragma_pack ≠ 0 → ∃ k, cfg.pragma_pack = 2 ^ k := fun h => hcfg.resolve_left h
  rw [member_align]
  grind

theorem member_align_pos (hcfg : cfg.Wf) (hm : m.Wf) : 0 < (member_align cfg m).1 := by
  obtain ⟨k, hk⟩ := member_align_pow hcfg hm
  rw [hk]
  exact Nat.two_pow_pos k

/-- Only an attribute makes an alignment greater. -/
theorem member_align_le (hm : m.Wf) (ha : m.aligned = 0) :
    (member_align cfg m).1 ≤ m.kind.align := by
  obtain ⟨k, hk⟩ := hm.align
  have hpos : 1 ≤ m.kind.align := by
    rw [hk]
    exact Nat.one_le_two_pow
  have hattr : attr_align m.aligned = 0 := by rw [ha]; rfl
  rw [member_align]
  grind

end members

/-- The bits up to which a structure is used. -/
def Loop.used (cfg : Config) (l : Loop) : Nat :=
  if cfg.pcc then 8 * l.c + l.bit_pos
  else if l.prevbt.isSome then 8 * l.offset + l.bit_pos else 8 * l.c

/-- A run of MS bit-fields has room for as many bits as its type has. -/
def Loop.Ok (cfg : Config) (l : Loop) : Prop :=
  cfg.pcc = false → ∀ bt, l.prevbt = some bt → l.c = l.offset + bt.size ∧ l.bit_pos ≤ 8 * bt.size

/-- The members whose layout is one of a kind: MS bit-fields of width zero are not. -/
def Member.Placeable (cfg : Config) (m : Member) : Prop := cfg.pcc = false → m.kind.isGap = false

/-- What a turn of the loop does. -/
structure Placed (cfg : Config) (m : Member) (l : Loop) (f : Field) (l' : Loop) : Prop where
  used_le : l.used cfg ≤ f.first_bit
  end_le : f.first_bit + f.width ≤ l'.used cfg
  bit_pos_lt : f.bit_pos < 64
  ok : l'.Ok cfg

section turns

variable {cfg : Config} {m : Member} {l : Loop} {bt : BitType} {n align : Nat} {packed : Bool} {size : Int}

theorem Loop.used_le (hok : l.Ok cfg) (hpcc : cfg.pcc = false) : l.used cfg ≤ 8 * l.c := by
  rw [Loop.used, hpcc, if_neg Bool.false_ne_true]
  cases hprev : l.prevbt with
  | none => simp
  | some bt =>
    obtain ⟨hc, hbit⟩ := hok hpcc bt hprev
    simp only [Option.isSome_some, if_true]
    omega

theorem place_plain_placed (hok : l.Ok cfg) (hkind : m.kind = .plain size align) {a : Nat}
    (ha : 0 < a) :
    Placed cfg m l (place_plain cfg m size a l).1 (place_plain cfg m size a l).2 := by
  have hc := le_align_up (x := if cfg.pcc then l.c + (l.bit_pos + 7) / 8 else l.c) ha
  refine ⟨?_, ?_, by simp [place_plain], fun _ bt h => by simp [place_plain, Loop.grow] at h⟩
  · cases hpcc : cfg.pcc with
    | true =>
      rw [hpcc, if_pos rfl] at hc
      simp only [Loop.used, hpcc, if_true, place_plain, Field.first_bit]
      omega
    | false =>
      have hused := Loop.used_le hok hpcc
      rw [hpcc, if_neg Bool.false_ne_true] at hc
      simp only [place_plain, hpcc, Field.first_bit, Bool.false_eq_true, if_false]
      omega
  · simp only [place_plain, Field.first_bit, Field.width, hkind, Loop.used, Loop.grow, Option.isSome_none,
      Bool.false_eq_true, if_false]
    split <;> omega

theorem starts_field_aligned (h : starts_field m bt n align packed l = false) : m.aligned = 0 := by
  rw [starts_field] at h
  simp only [Bool.or_eq_false_iff, bne_eq_false_iff_eq] at h
  exact h.1.2

theorem place_pcc_placed (hpcc : cfg.pcc = true) (ha : 0 < align) (hle : m.aligned = 0 → align ≤ 8) :
    Placed cfg m l (place_pcc m bt n align packed l).1 (place_pcc m bt n align packed l).2 := by
  have hok : (place_pcc m bt n align packed l).2.Ok cfg := fun h => by rw [hpcc] at h; cases h
  have hc := le_align_up (x := l.c + (l.bit_pos + 7) / 8) ha
  cases hstart : starts_field m bt n align packed l with
  | true =>
    refine ⟨?_, ?_, by simp [place_pcc, hstart], hok⟩
    · simp only [Loop.used, hpcc, if_true, place_pcc, hstart, Field.first_bit, Nat.zero_div, Nat.zero_mul,
        Nat.zero_mod, Nat.add_zero]
      omega
    · simp only [Loop.used, Loop.grow, hpcc, if_true, place_pcc, hstart, Field.first_bit, Field.width]
      omega
  | false =>
    have hmod := Nat.mod_lt l.bit_pos (y := align * 8) (by omega)
    have hdiv := Nat.div_add_mod l.bit_pos (align * 8)
    have hmul : align * 8 * (l.bit_pos / (align * 8)) = 8 * (l.bit_pos / (align * 8) * align) := by
      rw [Nat.mul_comm align 8, Nat.mul_assoc, Nat.mul_comm align]
    have hsmall := hle (starts_field_aligned hstart)
    refine ⟨?_, ?_, ?_, hok⟩
    · simp only [Loop.used, hpcc, if_true, place_pcc, hstart, Field.first_bit, Bool.false_eq_true, if_false]
      omega
    · simp only [Loop.used, Loop.grow, hpcc, if_true, place_pcc, hstart, Field.first_bit, Field.width,
        Bool.false_eq_true, if_false]
      omega
    · simp only [place_pcc, hstart, Bool.false_eq_true, if_false]
      omega

theorem place_ms_placed (hpcc : cfg.pcc = false) (ha : 0 < align) (hn : 0 < n) (hwidth : n ≤ 8 * bt.size)
    (hok : l.Ok cfg) : Placed cfg m l (place_ms bt n align l).1 (place_ms bt n align l).2 := by
  have hsize := bt.size_le
  cases hstart : starts_run bt n l with
  | true =>
    have hused := Loop.used_le hok hpcc
    have hc := le_align_up (x := l.c) ha
    refine ⟨?_, ?_, by simp [place_ms, hstart], fun _ bt' h => ?_⟩
    · simp only [place_ms, hstart, Field.first_bit, if_true]
      omega
    · simp only [place_ms, hstart, Field.first_bit, Field.width, Loop.used, Loop.grow, hpcc, if_true,
        Bool.false_eq_true, if_false, Option.isSome_some]
      omega
    · simp only [place_ms, hstart, Loop.grow, if_true, if_pos (Or.inl (Nat.ne_of_gt hn) : n ≠ 0 ∨ _)] at h ⊢
      cases h
      omega
  | false =>
    rw [starts_run] at hstart
    simp only [Bool.or_eq_false_iff, decide_eq_false_iff_not, hn, decide_true] at hstart
    have hprev : l.prevbt = some bt := by
      have := hstart.2
      simp at this
      exact this.symm
    obtain ⟨hc, hbit⟩ := hok hpcc bt hprev
    have hstart' : starts_run bt n l = false := by
      rw [starts_run]
      simp [hstart.1, hn, hprev]
    have hroom := hstart.1
    refine ⟨?_, ?_, ?_, fun _ bt' h => ?_⟩
    · simp only [place_ms, hstart', Field.first_bit, Loop.used, hpcc, hprev, Option.isSome_some, if_true,
        Bool.false_eq_true, if_false]
      omega
    · simp only [place_ms, hstart', Field.first_bit, Field.width, Loop.used, Loop.grow, hpcc, if_true,
        Bool.false_eq_true, if_false, Option.isSome_some]
      omega
    · simp only [place_ms, hstart', Bool.false_eq_true, if_false]
      omega
    · simp only [place_ms, hstart', Loop.grow, Bool.false_eq_true, if_false] at h ⊢
      cases h
      omega

/-- A member is placed after those before it. -/
theorem place_placed (hcfg : cfg.Wf) (hm : m.Wf) (hplace : m.Placeable cfg) (hunion : cfg.is_union = false)
    (hok : l.Ok cfg) : Placed cfg m l (place cfg m l).1 (place cfg m l).2 := by
  have ha := member_align_pos hcfg hm
  have hle : m.aligned = 0 → (member_align cfg m).1 ≤ m.kind.align := member_align_le hm
  cases hkind : m.kind with
  | plain size align =>
    have := place_plain_placed hok hkind ha
    simpa [place, hunion, hkind] using this
  | bits bt n =>
    rw [hkind, Kind.align] at hle
    cases hpcc : cfg.pcc with
    | true =>
      have : Placed cfg m l (place_pcc m bt n (member_align cfg m).1 (member_align cfg m).2 l).1
          (place_pcc m bt n (member_align cfg m).1 (member_align cfg m).2 l).2 :=
        place_pcc_placed hpcc ha fun h => (hle h).trans bt.size_le
      simpa [place, hunion, hkind, hpcc] using this
    | false =>
      have hgap := hplace hpcc
      rw [hkind, Kind.isGap, beq_eq_false_iff_ne] at hgap
      have := place_ms_placed (m := m) hpcc ha (Nat.pos_of_ne_zero hgap) (hm.width bt n hkind) hok
      simpa [place, hunion, hkind, hpcc] using this

end turns

section runs

variable {cfg : Config} {m : Member} {l : Loop}

theorem place_all_cons (cfg : Config) (m : Member) (ms : List Member) (l : Loop) :
    place_all cfg (m :: ms) l =
      ((place cfg m l).1 :: (place_all cfg ms (place cfg m l).2).1, (place_all cfg ms (place cfg m l).2).2) := rfl

/-- The members of a structure come one after the other. -/
theorem place_all_ordered (hcfg : cfg.Wf) (hunion : cfg.is_union = false) :
    ∀ {ms : List Member} {l : Loop}, (∀ m ∈ ms, m.Wf) → (∀ m ∈ ms, m.Placeable cfg) → l.Ok cfg →
      (place_all cfg ms l).1.Pairwise (fun f g => f.first_bit + f.width ≤ g.first_bit) ∧
        (∀ f ∈ (place_all cfg ms l).1, l.used cfg ≤ f.first_bit ∧
          f.first_bit + f.width ≤ (place_all cfg ms l).2.used cfg ∧ f.bit_pos < 64) ∧
        l.used cfg ≤ (place_all cfg ms l).2.used cfg ∧ (place_all cfg ms l).2.Ok cfg := by
  intro ms
  induction ms with
  | nil => exact fun {l} _ _ hok => ⟨List.Pairwise.nil, fun f hf => (List.not_mem_nil hf).elim, le_rfl, hok⟩
  | cons m ms ih =>
    intro l hms hplace hok
    obtain ⟨hm, hms⟩ := List.forall_mem_cons.mp hms
    obtain ⟨hfirst, hplace⟩ := List.forall_mem_cons.mp hplace
    have hplaced := place_placed hcfg hm hfirst hunion hok
    obtain ⟨hpairwise, hall, hle, hok'⟩ := ih hms hplace hplaced.ok
    have hused := hplaced.used_le
    have hend := hplaced.end_le
    rw [place_all_cons]
    refine ⟨List.Pairwise.cons (fun g hg => hend.trans (hall g hg).1) hpairwise, ?_,
      (hused.trans ((Nat.le_add_right _ _).trans hend)).trans hle, hok'⟩
    intro f hf
    obtain rfl | hf := List.mem_cons.mp hf
    · exact ⟨hused, hend.trans hle, hplaced.bit_pos_lt⟩
    · obtain ⟨h₁, h₂, h₃⟩ := hall f hf
      exact ⟨by omega, h₂, h₃⟩

/-- The members of a union start at its first bit, and it is as large as each of them. -/
theorem place_all_union (hunion : cfg.is_union = true) :
    ∀ {ms : List Member} {l : Loop}, (∀ m ∈ ms, m.Wf) →
      (∀ f ∈ (place_all cfg ms l).1, f.first_bit = 0 ∧ f.width ≤ 8 * (place_all cfg ms l).2.c ∧ f.bit_pos < 64) ∧
        l.c ≤ (place_all cfg ms l).2.c ∧ (place_all cfg ms l).2.bit_pos = l.bit_pos := by
  intro ms
  induction ms with
  | nil => exact fun {l} _ => ⟨fun f hf => (List.not_mem_nil hf).elim, le_rfl, rfl⟩
  | cons m ms ih =>
    intro l hms
    obtain ⟨hm, hms⟩ := List.forall_mem_cons.mp hms
    have hplace : place cfg m l = place_union cfg m (member_align cfg m).1 l := by simp [place, hunion]
    obtain ⟨hall, hle, hbit⟩ := ih (l := (place cfg m l).2) hms
    rw [place_all_cons]
    rw [hplace] at hall hle hbit ⊢
    have hgrow : l.c ≤ (place_union cfg m (member_align cfg m).1 l).2.c := Nat.le_max_left _ _
    refine ⟨fun f hf => ?_, hgrow.trans hle, hbit⟩
    obtain rfl | hf := List.mem_cons.mp hf
    · refine ⟨rfl, ?_, Nat.zero_lt_succ 63⟩
      refine Nat.le_trans ?_ (Nat.mul_le_mul_left 8 hle)
      simp only [place_union, Field.width, Loop.grow]
      cases hkind : m.kind with
      | plain size align => exact Nat.mul_le_mul_left 8 (Nat.le_max_right _ _)
      | bits bt n =>
        have hwidth := hm.width bt n hkind
        simp only
        split <;> omega
    · exact hall f hf

/-- The greatest alignment stays a power of two. -/
theorem place_maxalign (hcfg : cfg.Wf) (hm : m.Wf) (hpow : ∃ k, l.maxalign = 2 ^ k) :
    (∃ k, (place cfg m l).2.maxalign = 2 ^ k) ∧ l.maxalign ≤ (place cfg m l).2.maxalign := by
  obtain ⟨a, ha, hgrow⟩ : ∃ a, (∃ k, a = 2 ^ k) ∧ (place cfg m l).2.maxalign = max l.maxalign a := by
    have hpow := member_align_pow hcfg hm
    have hone : ∃ k, (1 : Nat) = 2 ^ k := ⟨0, rfl⟩
    rw [place]
    cases m.kind <;> simp only <;> grind [place_union, place_plain, place_pcc, place_ms, Loop.grow]
  rw [hgrow]
  refine ⟨?_, Nat.le_max_left _ _⟩
  obtain h | h := Nat.le_total l.maxalign a
  · rwa [Nat.max_eq_right h]
  · rwa [Nat.max_eq_left h]

/-- A member that is not a bit-field is aligned. -/
theorem place_aligned {size : Int} {align : Nat} (hcfg : cfg.Wf) (hm : m.Wf) (hkind : m.kind = .plain size align) :
    (place cfg m l).1.kind = m.kind ∧ (member_align cfg m).1 ∣ (place cfg m l).1.c ∧
      (member_align cfg m).1 ≤ (place cfg m l).2.maxalign := by
  have ha := member_align_pos hcfg hm
  cases hunion : cfg.is_union with
  | true =>
    have hplace : place cfg m l = place_union cfg m (member_align cfg m).1 l := by simp [place, hunion]
    rw [hplace]
    exact ⟨rfl, Nat.dvd_zero _, Nat.le_max_right _ _⟩
  | false =>
    have hplace : place cfg m l = place_plain cfg m size (member_align cfg m).1 l := by simp [place, hunion, hkind]
    rw [hplace]
    exact ⟨rfl, dvd_align_up ha, Nat.le_max_right _ _⟩

/-- What is known of the alignment of members that are not bit-fields. -/
theorem place_all_aligned (hcfg : cfg.Wf) :
    ∀ {ms : List Member} {l : Loop}, (∀ m ∈ ms, m.Wf) → (∃ k, l.maxalign = 2 ^ k) →
      (∀ (i : Nat) (m : Member) (f : Field) (size : Int) (align : Nat), ms[i]? = some m →
        (place_all cfg ms l).1[i]? = some f → m.kind = .plain size align →
        f.kind = m.kind ∧ (member_align cfg m).1 ∣ f.c ∧ (member_align cfg m).1 ≤ (place_all cfg ms l).2.maxalign) ∧
        l.maxalign ≤ (place_all cfg ms l).2.maxalign ∧ ∃ k, (place_all cfg ms l).2.maxalign = 2 ^ k := by
  intro ms
  induction ms with
  | nil => exact fun {l} _ hpow => ⟨fun i m f size align h => by simp at h, le_rfl, hpow⟩
  | cons m ms ih =>
    intro l hms hpow
    obtain ⟨hm, hms⟩ := List.forall_mem_cons.mp hms
    obtain ⟨hpow', hle'⟩ := place_maxalign (l := l) hcfg hm hpow
    obtain ⟨hall, hle, hpow'⟩ := ih hms hpow'
    rw [place_all_cons]
    refine ⟨fun i m' f size align hm' hf hkind => ?_, hle'.trans hle, hpow'⟩
    cases i with
    | zero =>
      cases hm'
      cases hf
      obtain ⟨hfkind, hdvd, halign⟩ := place_aligned (l := l) hcfg hm hkind
      exact ⟨hfkind, hdvd, halign.trans hle⟩
    | succ i => exact hall i m' f size align hm' hf hkind

end runs

section access

variable {p n c : Nat} {f : Field}

theorem wide_enough_mono {s s' : Nat} (h : s ≤ s') : (wide_enough s).size ≤ (wide_enough s').size := by
  rw [wide_enough, wide_enough]
  split_ifs <;> simp only [BitType.size] <;> omega

/-- The address for a larger type is not above the one for a smaller type. -/
theorem aligned_address_anti {t₀ t : BitType} (h : t₀.size ≤ t.size) :
    p / 8 / t.size * t.size ≤ p / 8 / t₀.size * t₀.size := by
  cases t₀ <;> cases t <;> simp only [BitType.size] at h ⊢ <;> omega

theorem two_mul_size_le {t₀ t : BitType} (h : t₀.size < t.size) : 2 * t₀.size ≤ t.size := by
  cases t₀ <;> cases t <;> simp only [BitType.size] at h ⊢ <;> omega

/-- The search goes on only with a larger type, so it ends. -/
theorem access_loop_ends (k : Nat) : ∀ t₀ t : BitType, t₀.size ≤ t.size →
    t = wide_enough ((p - p / 8 / t₀.size * t₀.size * 8 + n + 7) / 8) → 16 ≤ t₀.size * 2 ^ k →
    ∃ r, access_loop p n k (some (p / 8 / t₀.size * t₀.size)) t = some r ∧ r.1 * 8 ≤ p := by
  induction k with
  | zero =>
    intro t₀ t _ _ hk
    have := t₀.size_le
    omega
  | succ k ih =>
    intro t₀ t hle ht hk
    rw [access_loop]
    split
    · exact ⟨_, rfl, by have := Nat.div_mul_le_self (p / 8) t.size; dsimp only; omega⟩
    · rename_i hne
      have hlt : t₀.size < t.size := by
        refine lt_of_le_of_ne hle fun heq => hne ?_
        rw [heq]
      have hanti : p / 8 / t.size * t.size ≤ p / 8 / t₀.size * t₀.size := aligned_address_anti hle
      have hmono : (wide_enough ((p - p / 8 / t₀.size * t₀.size * 8 + n + 7) / 8)).size ≤
          (wide_enough ((p - p / 8 / t.size * t.size * 8 + n + 7) / 8)).size := wide_enough_mono (by omega)
      rw [← ht] at hmono
      refine ih t _ hmono rfl ?_
      have htwo := two_mul_size_le hlt
      calc
        16 ≤ t₀.size * 2 ^ (k + 1) := hk
        _ = 2 * t₀.size * 2 ^ k := by
          rw [Nat.pow_succ, Nat.mul_comm (2 ^ k) 2, ← Nat.mul_assoc, Nat.mul_comm t₀.size 2]
        _ ≤ t.size * 2 ^ k := Nat.mul_le_mul_right _ htwo

theorem access_loop_some (p n : Nat) : ∃ r, access_loop p n 5 none .byte = some r ∧ r.1 * 8 ≤ p := by
  rw [access_loop, if_neg nofun]
  refine access_loop_ends 4 .byte _ ?_ rfl (by decide)
  have := (wide_enough ((p - p / 8 / BitType.byte.size * BitType.byte.size * 8 + n + 7) / 8)).size_pos
  exact this

/-- A member as the loop has placed it. -/
structure Field.Fresh (f : Field) : Prop where
  auxtype : f.auxtype = .none
  bit_pos : ∀ size align, f.kind = .plain size align → f.bit_pos = 0
  width : ∀ bt n, f.kind = .bits bt n → n ≤ 8 * bt.size

theorem place_fresh {m : Member} (hm : m.Wf) (cfg : Config) (l : Loop) : (place cfg m l).1.Fresh := by
  have hwidth := hm.width
  rw [place]
  constructor
  · cases m.kind <;> simp only <;> grind [place_union, place_plain, place_pcc, place_ms]
  · cases m.kind <;> simp only <;> grind [place_union, place_plain, place_pcc, place_ms]
  · cases hkind : m.kind <;> simp only <;>
      grind [place_union, place_plain, place_pcc, place_ms, BitType.size]

theorem place_all_fresh (cfg : Config) {ms : List Member} (hms : ∀ m ∈ ms, m.Wf) (l : Loop) :
    ∀ f ∈ (place_all cfg ms l).1, f.Fresh := by
  induction ms generalizing l with
  | nil => exact fun f hf => (List.not_mem_nil hf).elim
  | cons m ms ih =>
    obtain ⟨hm, hms⟩ := List.forall_mem_cons.mp hms
    rw [place_all_cons]
    exact List.forall_mem_cons.mpr ⟨place_fresh hm cfg l, ih hms _⟩

/-- What the check leaves of a member, in a structure of `c` bytes. -/
structure Fixed (c : Nat) (f f' : Field) : Prop where
  kind : f'.kind = f.kind
  first_bit : f'.first_bit = f.first_bit
  width : f'.width = f.width
  plain : ∀ size align, f.kind = .plain size align → f'.c = f.c
  covers : f'.width ≠ 0 → 8 * f'.access.1 ≤ f'.first_bit ∧ f'.first_bit + f'.width ≤ 8 * (f'.access.1 + f'.access.2)
  inside : f'.access.1 + f'.access.2 ≤ c
  bit_pos_lt : f'.bit_pos < 64

theorem fix_access_fixed (hfresh : f.Fresh) (hend : f.first_bit + f.width ≤ 8 * c) (hbit : f.bit_pos < 64) :
    ∃ f', fix_access c f = some f' ∧ Fixed c f f' := by
  obtain ⟨kind, fc, bit_pos, auxtype⟩ := f
  obtain ⟨haux, hpos, -⟩ := hfresh
  simp only at haux hpos hbit
  cases haux
  cases kind with
  | plain size align =>
    cases hpos size align rfl
    simp only [Field.first_bit, Field.width] at hend
    refine ⟨_, rfl, rfl, rfl, rfl, fun _ _ _ => rfl, fun _ => ?_, ?_, hbit⟩
    · simp only [Field.first_bit, Field.width, Field.access]
      omega
    · simp only [Field.access]
      omega
  | bits bt n =>
    simp only [Field.first_bit, Field.width] at hend
    simp only [fix_access]
    by_cases hn : n = 0
    · rw [if_pos hn]
      refine ⟨_, rfl, rfl, rfl, rfl, fun _ _ _ => rfl, fun h => (h hn).elim, ?_, hbit⟩
      simp only [Field.access, if_pos hn]
      omega
    rw [if_neg hn]
    by_cases hroom : bit_pos + n ≤ bt.size * 8 ∧ fc + bt.size ≤ c
    · rw [if_pos hroom]
      refine ⟨_, rfl, rfl, rfl, rfl, fun _ _ _ => rfl, fun _ => ?_, ?_, hbit⟩
      · simp only [Field.first_bit, Field.width, Field.access, if_neg hn]
        omega
      · simp only [Field.access, if_neg hn]
        omega
    rw [if_neg hroom]
    obtain ⟨⟨cx, t⟩, hloop, hcx⟩ := access_loop_some (fc * 8 + bit_pos) n
    simp only at hcx
    rw [hloop]
    by_cases hwide : fc * 8 + bit_pos - cx * 8 + n ≤ t.size * 8 ∧ cx + t.size ≤ c
    · refine ⟨_, rfl, ?_⟩
      simp only [if_pos hwide]
      have hsize := t.size_le
      have haccess : Field.access ⟨.bits bt n, cx, fc * 8 + bit_pos - cx * 8,
          if t.size ≠ bt.size then .type t else .none⟩ = (cx, t.size) := by
        rw [Field.access]
        simp only [if_neg hn]
        by_cases heq : t.size = bt.size
        · rw [if_neg (not_not.mpr heq), heq]
        · rw [if_pos heq]
      refine ⟨rfl, ?_, rfl, fun _ _ h => (by cases h), fun _ => ?_, ?_, ?_⟩
      · simp only [Field.first_bit]
        omega
      · rw [haccess]
        simp only [Field.first_bit, Field.width]
        omega
      · rw [haccess]
        exact hwide.2
      · simp only
        omega
    · refine ⟨_, rfl, ?_⟩
      simp only [if_neg hwide]
      refine ⟨rfl, rfl, rfl, fun _ _ h => (by cases h), fun _ => ?_, ?_, hbit⟩
      · simp only [Field.first_bit, Field.width, Field.access, if_neg hn]
        omega
      · simp only [Field.access, if_neg hn]
        omega

end access

theorem mapM_fixed {c : Nat} {fs : List Field} (h : ∀ f ∈ fs, ∃ f', fix_access c f = some f' ∧ Fixed c f f') :
    ∃ fs', fs.mapM (fix_access c) = some fs' ∧ List.Forall₂ (Fixed c) fs fs' := by
  induction fs with
  | nil => exact ⟨[], rfl, List.Forall₂.nil⟩
  | cons f fs ih =>
    obtain ⟨⟨f', hf, hfixed⟩, hrest⟩ := List.forall_mem_cons.mp h
    obtain ⟨fs', hfs, hall⟩ := ih hrest
    refine ⟨f' :: fs', ?_, List.Forall₂.cons hfixed hall⟩
    rw [List.mapM_cons, hf, hfs]
    rfl

/-- The check keeps the bits of each member. -/
theorem fixed_bits {c : Nat} {fs fs' : List Field} (h : List.Forall₂ (Fixed c) fs fs') :
    fs'.map (fun f => (f.first_bit, f.width)) = fs.map fun f => (f.first_bit, f.width) := by
  induction h with
  | nil => rfl
  | cons hfixed _ ih => rw [List.map_cons, List.map_cons, ih, hfixed.first_bit, hfixed.width]

theorem pairwise_fixed {c : Nat} {fs fs' : List Field} (h : List.Forall₂ (Fixed c) fs fs')
    (hfs : fs.Pairwise fun f g => f.first_bit + f.width ≤ g.first_bit) :
    fs'.Pairwise fun f g => f.first_bit + f.width ≤ g.first_bit := by
  have hmap : ∀ fs : List Field, (fs.Pairwise fun f g => f.first_bit + f.width ≤ g.first_bit) ↔
      (fs.map fun f => (f.first_bit, f.width)).Pairwise fun a b => a.1 + a.2 ≤ b.1 := fun fs =>
    (List.pairwise_map (l := fs) (f := fun f => (f.first_bit, f.width)) (R := fun a b => a.1 + a.2 ≤ b.1)).symm
  rw [hmap, fixed_bits h, ← hmap]
  exact hfs

/-- The size before it is rounded has all bits of all members. -/
theorem place_all_end {cfg : Config} {ms : List Member} (hcfg : cfg.Wf) (hms : ∀ m ∈ ms, m.Wf)
    (hplace : ∀ m ∈ ms, m.Placeable cfg) {fs : List Field} {l : Loop}
    (h : place_all cfg ms ⟨0, 0, 0, 1, none, 0⟩ = (fs, l)) :
    (cfg.is_union = false → fs.Pairwise fun f g => f.first_bit + f.width ≤ g.first_bit) ∧
      ∀ f ∈ fs, f.first_bit + f.width ≤ 8 * (if cfg.pcc then l.c + (l.bit_pos + 7) / 8 else l.c) ∧ f.bit_pos < 64 := by
  cases hunion : cfg.is_union with
  | true =>
    obtain ⟨hall, -, -⟩ := place_all_union (l := ⟨0, 0, 0, 1, none, 0⟩) hunion hms
    rw [h] at hall
    simp only at hall
    refine ⟨fun h => (by cases h), fun f hf => ?_⟩
    obtain ⟨hfirst, hwidth, hbit⟩ := hall f hf
    refine ⟨?_, hbit⟩
    split <;> omega
  | false =>
    have hok : (⟨0, 0, 0, 1, none, 0⟩ : Loop).Ok cfg := fun _ bt h => by cases h
    obtain ⟨hpairwise, hall, -, hok'⟩ := place_all_ordered hcfg hunion hms hplace hok
    rw [h] at hpairwise hall hok'
    simp only at hall
    refine ⟨fun _ => hpairwise, fun f hf => ?_⟩
    obtain ⟨-, hend, hbit⟩ := hall f hf
    refine ⟨?_, hbit⟩
    cases hpcc : cfg.pcc with
    | true =>
      rw [Loop.used, hpcc, if_pos rfl] at hend
      rw [if_pos rfl]
      omega
    | false =>
      rw [if_neg Bool.false_ne_true]
      exact hend.trans (Loop.used_le hok' hpcc)

end tcc.layout
