import Mathlib.Data.List.Basic
import Tcc.Pp.Escape

/-! Characters in UTF-8, and what wide strings read of them. -/

namespace tcc.pp

def Scalar (u : Nat) : Prop := u < 0xd800 ∨ 0xe000 ≤ u ∧ u < 0x110000

instance (u : Nat) : Decidable (Scalar u) :=
  inferInstanceAs (Decidable (u < 0xd800 ∨ 0xe000 ≤ u ∧ u < 0x110000))

/-- The bytes of a scalar value, as numbers. -/
def utf8 (u : Nat) : List Nat :=
  if u < 0x80 then [u]
  else if u < 0x800 then [192 + u / 64, 128 + u % 64]
  else if u < 0x10000 then [224 + u / 4096, 128 + u / 64 % 64, 128 + u % 64]
  else [240 + u / 262144, 128 + u / 4096 % 64, 128 + u / 64 % 64, 128 + u % 64]

theorem setWidth_eq_ofNat {x : BitVec 32} {n : Nat} (h : x.toNat = n) : x.setWidth 8 = BitVec.ofNat 8 n := by
  apply BitVec.eq_of_toNat_eq
  rw [BitVec.toNat_setWidth, BitVec.toNat_ofNat, h]

/-- The encoder gives the bytes of a scalar value, and an error for what is none. -/
theorem unicode_to_utf8_eq (Uc : BitVec 32) :
    unicode_to_utf8 Uc =
      if Scalar Uc.toNat then some ((utf8 Uc.toNat).map (BitVec.ofNat 8)) else none := by
  have hlt := Uc.isLt
  have hsurrogate : Uc - 0xd800 < 0x800 ↔ 0xd800 ≤ Uc.toNat ∧ Uc.toNat < 0xe000 := by
    rw [BitVec.lt_def, BitVec.toNat_sub]
    change (2 ^ 32 - 0xd800 + Uc.toNat) % 2 ^ 32 < 0x800 ↔ _
    omega
  have hbelow : ∀ k : Nat, k < 2 ^ 32 → (Uc < BitVec.ofNat 32 k ↔ Uc.toNat < k) := by
    intro k hk
    rw [BitVec.lt_def, BitVec.toNat_ofNat, Nat.mod_eq_of_lt hk]
  have hbyte : ∀ {x : BitVec 32} {n : Nat}, x.toNat = n → x.setWidth 8 = BitVec.ofNat 8 n :=
    fun h => setWidth_eq_ofNat h
  have h80 : Uc < 0x80 ↔ Uc.toNat < 0x80 := hbelow 0x80 (by decide)
  have h800 : Uc < 0x800 ↔ Uc.toNat < 0x800 := hbelow 0x800 (by decide)
  have h10000 : Uc < 0x10000 ↔ Uc.toNat < 0x10000 := hbelow 0x10000 (by decide)
  have h110000 : Uc < 0x110000 ↔ Uc.toNat < 0x110000 := hbelow 0x110000 (by decide)
  rw [unicode_to_utf8, utf8]
  by_cases h₁ : Uc.toNat < 0x80
  · rw [if_pos (h80.mpr h₁), if_pos (.inl (by omega)), if_pos h₁]
    simp only [List.map_cons, List.map_nil]
    rw [hbyte rfl]
  rw [if_neg (mt h80.mp h₁)]
  by_cases h₂ : Uc.toNat < 0x800
  · rw [if_pos (h800.mpr h₂), if_pos (.inl (by omega)), if_neg h₁, if_pos h₂]
    have hlead : (192 + Uc / 64 : BitVec 32).toNat = 192 + Uc.toNat / 64 := by
      rw [BitVec.toNat_add, BitVec.toNat_udiv]
      change (192 + Uc.toNat / 64) % 2 ^ 32 = _
      omega
    have hlast : (128 + Uc % 64 : BitVec 32).toNat = 128 + Uc.toNat % 64 := by
      rw [BitVec.toNat_add, BitVec.toNat_umod]
      change (128 + Uc.toNat % 64) % 2 ^ 32 = _
      omega
    simp only [List.map_cons, List.map_nil]
    rw [hbyte hlead, hbyte hlast]
  rw [if_neg (mt h800.mp h₂)]
  by_cases h₃ : 0xd800 ≤ Uc.toNat ∧ Uc.toNat < 0xe000
  · rw [if_pos (hsurrogate.mpr h₃), if_neg]
    rintro (h | h) <;> omega
  rw [if_neg (mt hsurrogate.mp h₃)]
  have hlast : (128 + Uc % 64 : BitVec 32).toNat = 128 + Uc.toNat % 64 := by
    rw [BitVec.toNat_add, BitVec.toNat_umod]
    change (128 + Uc.toNat % 64) % 2 ^ 32 = _
    omega
  have hmiddle : (128 + Uc / 64 % 64 : BitVec 32).toNat = 128 + Uc.toNat / 64 % 64 := by
    rw [BitVec.toNat_add, BitVec.toNat_umod, BitVec.toNat_udiv]
    change (128 + Uc.toNat / 64 % 64) % 2 ^ 32 = _
    omega
  by_cases h₄ : Uc.toNat < 0x10000
  · have hscalar : Scalar Uc.toNat := by
      rw [Scalar]
      omega
    rw [if_pos (h10000.mpr h₄), if_pos hscalar, if_neg h₁, if_neg h₂, if_pos h₄]
    have hlead : (224 + Uc / 4096 : BitVec 32).toNat = 224 + Uc.toNat / 4096 := by
      rw [BitVec.toNat_add, BitVec.toNat_udiv]
      change (224 + Uc.toNat / 4096) % 2 ^ 32 = _
      omega
    simp only [List.map_cons, List.map_nil]
    rw [hbyte hlead, hbyte hmiddle, hbyte hlast]
  rw [if_neg (mt h10000.mp h₄)]
  by_cases h₅ : Uc.toNat < 0x110000
  · rw [if_pos (h110000.mpr h₅), if_pos (.inr ⟨by omega, h₅⟩), if_neg h₁, if_neg h₂, if_neg h₄]
    have hlead : (240 + Uc / 262144 : BitVec 32).toNat = 240 + Uc.toNat / 262144 := by
      rw [BitVec.toNat_add, BitVec.toNat_udiv]
      change (240 + Uc.toNat / 262144) % 2 ^ 32 = _
      omega
    have hsecond : (128 + Uc / 4096 % 64 : BitVec 32).toNat = 128 + Uc.toNat / 4096 % 64 := by
      rw [BitVec.toNat_add, BitVec.toNat_umod, BitVec.toNat_udiv]
      change (128 + Uc.toNat / 4096 % 64) % 2 ^ 32 = _
      omega
    simp only [List.map_cons, List.map_nil]
    rw [hbyte hlead, hbyte hsecond, hbyte hmiddle, hbyte hlast]
  · rw [if_neg (mt h110000.mp h₅), if_neg]
    rintro (h | h) <;> omega

/-- What a continuation byte adds. -/
theorem shift_or (n b : Nat) : n <<< 6 ||| b &&& 0x3f = n * 64 + b % 64 := by
  have hand : b &&& 0x3f = b % 64 := Nat.and_two_pow_sub_one_eq_mod b 6
  have hlt : b % 64 < 2 ^ 6 := Nat.mod_lt _ (by decide)
  rw [hand, ← Nat.shiftLeft_add_eq_or_of_lt hlt, Nat.shiftLeft_eq]

theorem continuation_succ {c : Nat} {p : List Byte} {left i n : Nat} {b : Byte} (hb : p[i]? = some b) :
    continuation c p (left + 1) i n =
      if b.toNat < (limits c i).1 ∨ (limits c i).2 < b.toNat then .put 0xFFFD (p.drop i)
      else continuation c p left (i + 1) (n * 64 + b.toNat % 64) := by
  rw [continuation, hb]
  simp only [shift_or]

/-- A byte within the limits of its place. -/
def Within (c i : Nat) (b : Byte) : Prop := (limits c i).1 ≤ b.toNat ∧ b.toNat ≤ (limits c i).2

theorem le_limits (c i : Nat) : 0x80 ≤ (limits c i).1 ∧ (limits c i).2 ≤ 0xBF := by
  unfold limits
  split_ifs <;> decide

/-- The bytes of a sequence, from one of its continuation bytes on. -/
def WithinAll (c : Nat) : Nat → List Byte → Prop
  | _, [] => True
  | i, b :: bs => Within c i b ∧ WithinAll c (i + 1) bs

/-- The value with some more continuation bytes. -/
def continued (n : Nat) (bs : List Byte) : Nat := bs.foldl (fun n b => n * 64 + b.toNat % 64) n

/-- Continuation bytes that are all within their limits, or the first ones of them. -/
theorem continuation_spec {c : Nat} {p : List Byte} (left : Nat) {i n : Nat} (hi : i ≤ p.length) :
    (∃ bs, bs.length = left ∧ WithinAll c i bs ∧ p.drop i = bs ++ p.drop (i + left) ∧
        continuation c p left i n = .put (continued n bs) (p.drop (i + left))) ∨
      (∃ bs, bs.length < left ∧ WithinAll c i bs ∧ p.drop i = bs ++ p.drop (i + bs.length) ∧
        (continuation c p left i n = .put 0xFFFD (p.drop (i + bs.length)) ∨
          p.drop (i + bs.length) = [] ∧ continuation c p left i n = .past)) := by
  induction left generalizing i n with
  | zero => exact .inl ⟨[], rfl, trivial, rfl, rfl⟩
  | succ left ih =>
    cases hb : p[i]? with
    | none =>
      have hend : p.drop i = [] := List.drop_eq_nil_of_le (List.getElem?_eq_none_iff.mp hb)
      refine .inr ⟨[], Nat.succ_pos _, trivial, rfl, .inr ⟨hend, ?_⟩⟩
      rw [continuation, hb]
    | some b =>
      have hlt : i < p.length := (List.getElem?_eq_some_iff.mp hb).1
      have hdrop : p.drop i = b :: p.drop (i + 1) := by
        rw [List.drop_eq_getElem_cons hlt, (List.getElem?_eq_some_iff.mp hb).2]
      rw [continuation_succ hb]
      by_cases hout : b.toNat < (limits c i).1 ∨ (limits c i).2 < b.toNat
      · rw [if_pos hout]
        exact .inr ⟨[], Nat.succ_pos _, trivial, rfl, .inl rfl⟩
      · rw [if_neg hout]
        have hwithin : Within c i b := ⟨by omega, by omega⟩
        rcases ih (i := i + 1) (n := n * 64 + b.toNat % 64) hlt with
          ⟨bs, hlength, hall, hrest, hput⟩ | ⟨bs, hlength, hall, hrest, hput⟩
        · have hindex : i + (left + 1) = i + 1 + left := by omega
          refine .inl ⟨b :: bs, by rw [List.length_cons, hlength], ⟨hwithin, hall⟩, ?_, ?_⟩
          · rw [hdrop, List.cons_append, hindex, ← hrest]
          · rw [hput, hindex]
            rfl
        · have hindex : i + (b :: bs).length = i + 1 + bs.length := by
            rw [List.length_cons]
            omega
          refine .inr ⟨b :: bs, by rw [List.length_cons]; omega, ⟨hwithin, hall⟩, ?_, ?_⟩
          · rw [hdrop, List.cons_append, hindex, ← hrest]
          · rw [hindex]
            exact hput

/-- What the reader does with bytes that start like a sequence: they are the shortest bytes of a
    scalar value, or bytes that are left out for a replacement character. -/
inductive Decodes : Nat → List Byte → List Byte → Prop where
  | sequence {u : Nat} {rest : List Byte} (hscalar : Scalar u) :
      Decodes u ((utf8 u).map (BitVec.ofNat 8) ++ rest) rest
  | replacement {skipped rest : List Byte} (hne : skipped ≠ []) (hhigh : ∀ b ∈ skipped, 0x80 ≤ b.toNat) :
      Decodes 0xFFFD (skipped ++ rest) rest

theorem decodes_of_utf8 {u : Nat} {bs rest : List Byte} (hscalar : Scalar u)
    (hutf8 : utf8 u = bs.map BitVec.toNat) : Decodes u (bs ++ rest) rest := by
  have hbytes : (utf8 u).map (BitVec.ofNat 8) = bs := by
    rw [hutf8, List.map_map]
    apply List.map_id''
    intro b
    simp
  have hdecodes : Decodes u ((utf8 u).map (BitVec.ofNat 8) ++ rest) rest := .sequence hscalar
  rw [hbytes] at hdecodes
  exact hdecodes

/-- The second byte of a sequence excludes longer encodings than needed, surrogates and what is
    behind the last character. -/
theorem within_second {c : Nat} {b : Byte} (hwithin : Within c 1 b) :
    0x80 ≤ b.toNat ∧ b.toNat ≤ 0xBF ∧ (c = 0xE0 → 0xA0 ≤ b.toNat) ∧ (c = 0xED → b.toNat ≤ 0x9F) ∧
      (c = 0xF0 → 0x90 ≤ b.toNat) ∧ (c = 0xF4 → b.toNat ≤ 0x8F) := by
  unfold Within limits at hwithin
  rw [if_pos rfl] at hwithin
  split_ifs at hwithin <;> simp only at hwithin <;> omega

theorem Within.high {c i : Nat} {b : Byte} (hwithin : Within c i b) : 0x80 ≤ b.toNat ∧ b.toNat ≤ 0xBF :=
  ⟨(le_limits c i).1.trans hwithin.1, hwithin.2.trans (le_limits c i).2⟩

theorem WithinAll.high {c i : Nat} {bs : List Byte} (hall : WithinAll c i bs) :
    ∀ b ∈ bs, 0x80 ≤ b.toNat := by
  induction bs generalizing i with
  | nil => exact fun b hb => absurd hb List.not_mem_nil
  | cons b bs ih =>
    intro b' hb'
    rcases List.mem_cons.mp hb' with rfl | hmem
    · exact hall.1.high.1
    · exact ih hall.2 b' hmem

theorem and_low (n k : Nat) : n &&& 2 ^ k - 1 = n % 2 ^ k := Nat.and_two_pow_sub_one_eq_mod n k

/-- A sequence with its leading byte and all its continuation bytes. -/
theorem decodes_sequence {b : Byte} {left n : Nat} {bs rest : List Byte} (hlength : bs.length = left)
    (hlead : (left = 1 ∧ n = b.toNat % 32 ∧ 0xC2 ≤ b.toNat ∧ b.toNat ≤ 0xDF) ∨
      (left = 2 ∧ n = b.toNat % 16 ∧ 0xE0 ≤ b.toNat ∧ b.toNat ≤ 0xEF) ∨
      (left = 3 ∧ n = b.toNat % 8 ∧ 0xF0 ≤ b.toNat ∧ b.toNat ≤ 0xF4))
    (hall : WithinAll b.toNat 1 bs) : Decodes (continued n bs) (b :: bs ++ rest) rest := by
  rcases hlead with ⟨rfl, rfl, hlo, hhi⟩ | ⟨rfl, rfl, hlo, hhi⟩ | ⟨rfl, rfl, hlo, hhi⟩
  · obtain ⟨b₁, rfl⟩ := List.length_eq_one_iff.mp hlength
    obtain ⟨h₁, -⟩ := hall
    obtain ⟨hlo₁, hhi₁⟩ := h₁.high
    obtain ⟨u, hcontinued, hu⟩ : ∃ u, continued (b.toNat % 32) [b₁] = u ∧
        u = b.toNat % 32 * 64 + b₁.toNat % 64 := ⟨_, rfl, rfl⟩
    rw [hcontinued]
    apply decodes_of_utf8
    · rw [Scalar]
      omega
    · simp only [utf8, List.map_cons, List.map_nil]
      rw [if_neg (by omega), if_pos (by omega)]
      congr 1
      · omega
      · congr 1
        omega
  · obtain ⟨b₁, b₂, rfl⟩ := List.length_eq_two.mp hlength
    obtain ⟨h₁, h₂, -⟩ := hall
    obtain ⟨hlo₁, hhi₁, hE0, hED, -, -⟩ := within_second h₁
    obtain ⟨hlo₂, hhi₂⟩ := h₂.high
    obtain ⟨u, hcontinued, hu⟩ : ∃ u, continued (b.toNat % 16) [b₁, b₂] = u ∧
        u = (b.toNat % 16 * 64 + b₁.toNat % 64) * 64 + b₂.toNat % 64 := ⟨_, rfl, rfl⟩
    rw [hcontinued]
    apply decodes_of_utf8
    · rw [Scalar]
      omega
    · simp only [utf8, List.map_cons, List.map_nil]
      rw [if_neg (by omega), if_neg (by omega), if_pos (by omega)]
      congr 1
      · omega
      · congr 1
        · omega
        · congr 1
          omega
  · obtain ⟨b₁, b₂, b₃, rfl⟩ := List.length_eq_three.mp hlength
    obtain ⟨h₁, h₂, h₃, -⟩ := hall
    obtain ⟨hlo₁, hhi₁, -, -, hF0, hF4⟩ := within_second h₁
    obtain ⟨hlo₂, hhi₂⟩ := h₂.high
    obtain ⟨hlo₃, hhi₃⟩ := h₃.high
    obtain ⟨u, hcontinued, hu⟩ : ∃ u, continued (b.toNat % 8) [b₁, b₂, b₃] = u ∧
        u = ((b.toNat % 8 * 64 + b₁.toNat % 64) * 64 + b₂.toNat % 64) * 64 + b₃.toNat % 64 := ⟨_, rfl, rfl⟩
    rw [hcontinued]
    apply decodes_of_utf8
    · rw [Scalar]
      omega
    · simp only [utf8, List.map_cons, List.map_nil]
      rw [if_neg (by omega), if_neg (by omega), if_neg (by omega)]
      congr 1
      · omega
      · congr 1
        · omega
        · congr 1
          · omega
          · congr 1
            omega

/-- The kind of sequence that a leading byte starts. -/
theorem utf8_sequence_eq {c : Nat} (p : List Byte) :
    (utf8_sequence c p = .put 0xFFFD (p.drop 1)) ∨
      ∃ left n, utf8_sequence c p = continuation c p left 1 n ∧
        ((left = 1 ∧ n = c % 32 ∧ 0xC2 ≤ c ∧ c ≤ 0xDF) ∨ (left = 2 ∧ n = c % 16 ∧ 0xE0 ≤ c ∧ c ≤ 0xEF) ∨
          (left = 3 ∧ n = c % 8 ∧ 0xF0 ≤ c ∧ c ≤ 0xF4)) := by
  unfold utf8_sequence
  by_cases h₁ : c < 0xC2
  · exact .inl (if_pos h₁)
  rw [if_neg h₁]
  by_cases h₂ : c ≤ 0xDF
  · exact .inr ⟨1, _, if_pos h₂, .inl ⟨rfl, and_low c 5, by omega, h₂⟩⟩
  rw [if_neg h₂]
  by_cases h₃ : c ≤ 0xEF
  · exact .inr ⟨2, _, if_pos h₃, .inr (.inl ⟨rfl, and_low c 4, by omega, h₃⟩)⟩
  rw [if_neg h₃]
  by_cases h₄ : c ≤ 0xF4
  · exact .inr ⟨3, _, if_pos h₄, .inr (.inr ⟨rfl, and_low c 3, by omega, h₄⟩)⟩
  · exact .inl (if_neg h₄)

/-- A byte from 80 on gives a character of its shortest sequence or the replacement character, and
    reads no further than the next byte below 80. -/
theorem utf8_sequence_spec {b : Byte} {p : List Byte} (hhigh : 0x80 ≤ b.toNat) :
    (∃ u bs rest, utf8_sequence b.toNat (b :: p) = .put u rest ∧ Decodes u (b :: p) rest ∧
        p = bs ++ rest ∧ ∀ b' ∈ bs, 0x80 ≤ b'.toNat) ∨
      utf8_sequence b.toNat (b :: p) = .past ∧ ∀ b' ∈ p, 0x80 ≤ b'.toNat := by
  rcases utf8_sequence_eq (c := b.toNat) (b :: p) with hput | ⟨left, n, heq, hlead⟩
  · have hreplaced : Decodes 0xFFFD ([b] ++ p) p := .replacement (by simp) (by simpa using hhigh)
    exact .inl ⟨0xFFFD, [], p, hput, hreplaced, rfl, by simp⟩
  · rw [heq]
    rcases continuation_spec (c := b.toNat) (p := b :: p) left (i := 1) (n := n) (by simp) with
      ⟨bs, hlength, hall, hrest, hput⟩ | ⟨bs, hlength, hall, hrest, hput | ⟨hend, hpast⟩⟩
    · have hsplit : b :: p = b :: bs ++ (b :: p).drop (1 + left) := by
        rw [List.cons_append, ← hrest]
        rfl
      refine .inl ⟨_, bs, _, hput, ?_, hrest, hall.high⟩
      conv => arg 2; rw [hsplit]
      exact decodes_sequence hlength hlead hall
    · have hsplit : b :: p = b :: bs ++ (b :: p).drop (1 + bs.length) := by
        rw [List.cons_append, ← hrest]
        rfl
      refine .inl ⟨_, bs, _, hput, ?_, hrest, hall.high⟩
      conv => arg 2; rw [hsplit]
      apply Decodes.replacement (by simp)
      intro b' hb'
      rcases List.mem_cons.mp hb' with rfl | hmem
      · exact hhigh
      · exact hall.high b' hmem
    · rw [hend, List.append_nil] at hrest
      have hp : p = bs := hrest
      exact .inr ⟨hpast, by rw [hp]; exact hall.high⟩

theorem toNat_byte {n : Nat} (hn : n < 256) : (BitVec.ofNat 8 n).toNat = n := Nat.mod_eq_of_lt hn

theorem not_out {n : Nat} (c i : Nat) (hlo : 0x80 ≤ n) (hhi : n ≤ 0xBF)
    (hsecond : i ≠ 1 ∨ (c ≠ 0xE0 ∨ 0xA0 ≤ n) ∧ (c ≠ 0xED ∨ n ≤ 0x9F) ∧ (c ≠ 0xF0 ∨ 0x90 ≤ n) ∧
      (c ≠ 0xF4 ∨ n ≤ 0x8F)) :
    ¬ ((BitVec.ofNat 8 n).toNat < (limits c i).1 ∨ (limits c i).2 < (BitVec.ofNat 8 n).toNat) := by
  rw [toNat_byte (by omega)]
  unfold limits
  split_ifs <;> simp only <;> omega

/-- The bytes of a scalar value are read as it, but for the NUL and the backslash. -/
theorem turn_utf8 (gnu_ext : Bool) {u : Nat} (hscalar : Scalar u) (hnul : u ≠ 0) (hbackslash : u ≠ 92)
    (rest : List Byte) : turn true gnu_ext ((utf8 u).map (BitVec.ofNat 8) ++ rest) = .put u rest := by
  rw [Scalar] at hscalar
  unfold utf8
  by_cases h₁ : u < 0x80
  · rw [if_pos h₁]
    have hbyte : (BitVec.ofNat 8 u).toNat = u := toNat_byte (by omega)
    simp only [List.map_cons, List.map_nil, List.cons_append, List.nil_append, turn, hbyte]
    rw [if_neg hnul, if_neg hbackslash, if_neg (by omega)]
  rw [if_neg h₁]
  have hlast := toNat_byte (n := 128 + u % 64) (by omega)
  have hmiddle := toNat_byte (n := 128 + u / 64 % 64) (by omega)
  by_cases h₂ : u < 0x800
  · rw [if_pos h₂]
    have hlead := toNat_byte (n := 192 + u / 64) (by omega)
    have hlow : 192 + u / 64 &&& 0x1f = u / 64 :=
      (and_low _ 5).trans (by omega)
    simp only [List.map_cons, List.map_nil, List.cons_append, List.nil_append, turn, hlead]
    rw [if_neg (by omega), if_neg (by omega), if_pos ⟨trivial, by omega⟩, utf8_sequence, if_neg (by omega),
      if_pos (by omega), hlow, continuation_succ rfl,
      if_neg (not_out (192 + u / 64) 1 (by omega) (by omega) (by omega)), continuation, hlast]
    have hvalue : u / 64 * 64 + (128 + u % 64) % 64 = u := by omega
    rw [hvalue]
    rfl
  rw [if_neg h₂]
  by_cases h₃ : u < 0x10000
  · rw [if_pos h₃]
    have hlead := toNat_byte (n := 224 + u / 4096) (by omega)
    have hlow : 224 + u / 4096 &&& 0xf = u / 4096 :=
      (and_low _ 4).trans (by omega)
    simp only [List.map_cons, List.map_nil, List.cons_append, List.nil_append, turn, hlead]
    rw [if_neg (by omega), if_neg (by omega), if_pos ⟨trivial, by omega⟩, utf8_sequence, if_neg (by omega),
      if_neg (by omega), if_pos (by omega), hlow, continuation_succ rfl,
      if_neg (not_out (224 + u / 4096) 1 (by omega) (by omega) (by omega)), continuation_succ rfl,
      if_neg (not_out (224 + u / 4096) 2 (by omega) (by omega) (by omega)), continuation, hmiddle, hlast]
    have hvalue : (u / 4096 * 64 + (128 + u / 64 % 64) % 64) * 64 + (128 + u % 64) % 64 = u := by omega
    rw [hvalue]
    rfl
  · rw [if_neg h₃]
    have hlead := toNat_byte (n := 240 + u / 262144) (by omega)
    have hsecond := toNat_byte (n := 128 + u / 4096 % 64) (by omega)
    have hlow : 240 + u / 262144 &&& 0x7 = u / 262144 :=
      (and_low _ 3).trans (by omega)
    simp only [List.map_cons, List.map_nil, List.cons_append, List.nil_append, turn, hlead]
    rw [if_neg (by omega), if_neg (by omega), if_pos ⟨trivial, by omega⟩, utf8_sequence, if_neg (by omega),
      if_neg (by omega), if_neg (by omega), if_pos (by omega), hlow, continuation_succ rfl,
      if_neg (not_out (240 + u / 262144) 1 (by omega) (by omega) (by omega)), continuation_succ rfl,
      if_neg (not_out (240 + u / 262144) 2 (by omega) (by omega) (by omega)), continuation_succ rfl,
      if_neg (not_out (240 + u / 262144) 3 (by omega) (by omega) (by omega)), continuation, hsecond, hmiddle, hlast]
    have hvalue : ((u / 262144 * 64 + (128 + u / 4096 % 64) % 64) * 64 + (128 + u / 64 % 64) % 64) * 64 +
        (128 + u % 64) % 64 = u := by omega
    rw [hvalue]
    rfl

end tcc.pp
