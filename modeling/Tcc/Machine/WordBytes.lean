import Mathlib.Order.Defs.PartialOrder
import Mathlib.Tactic.Common

/-! The bytes of an array of 32-bit words, the lowest of a word first. -/

namespace machine.wordbytes

def bytes_of_word (w : BitVec 32) : List (BitVec 8) :=
  [w.setWidth 8, (w >>> 8).setWidth 8, (w >>> 16).setWidth 8, (w >>> 24).setWidth 8]

def bytes_of (ws : List (BitVec 32)) : List (BitVec 8) := ws.flatMap bytes_of_word

/-- The whole words of a list of bytes. -/
def words_of : List (BitVec 8) → List (BitVec 32)
  | b₀ :: b₁ :: b₂ :: b₃ :: bs => (b₃ ++ b₂ ++ b₁ ++ b₀) :: words_of bs
  | _ => []

theorem bytes_of_cons (w : BitVec 32) (ws : List (BitVec 32)) :
    bytes_of (w :: ws) = bytes_of_word w ++ bytes_of ws :=
  List.flatMap_cons

theorem length_bytes_of (ws : List (BitVec 32)) : (bytes_of ws).length = 4 * ws.length := by
  induction ws with
  | nil => rfl
  | cons w ws ih =>
    rw [bytes_of_cons, List.length_append, ih, List.length_cons]
    change 4 + 4 * ws.length = _
    omega

theorem bytes_of_word_append (b₀ b₁ b₂ b₃ : BitVec 8) :
    bytes_of_word (b₃ ++ b₂ ++ b₁ ++ b₀) = [b₀, b₁, b₂, b₃] := by
  have hbyte : ∀ (x : BitVec 32) (b : BitVec 8) (k : Nat),
      (∀ i < 8, x.getLsbD (8 * k + i) = b.getLsbD i) → (x >>> (8 * k)).setWidth 8 = b := by
    intro x b k hbits
    apply BitVec.eq_of_getLsbD_eq
    intro i hi
    rw [BitVec.getLsbD_setWidth, BitVec.getLsbD_ushiftRight, hbits i hi]
    simp [hi]
  have h₀ := hbyte (b₃ ++ b₂ ++ b₁ ++ b₀) b₀ 0 (by intro i hi; simp only [BitVec.getLsbD_append]; grind)
  have h₁ := hbyte (b₃ ++ b₂ ++ b₁ ++ b₀) b₁ 1 (by intro i hi; simp only [BitVec.getLsbD_append]; grind)
  have h₂ := hbyte (b₃ ++ b₂ ++ b₁ ++ b₀) b₂ 2 (by intro i hi; simp only [BitVec.getLsbD_append]; grind)
  have h₃ := hbyte (b₃ ++ b₂ ++ b₁ ++ b₀) b₃ 3 (by intro i hi; simp only [BitVec.getLsbD_append]; grind)
  rw [bytes_of_word, h₁, h₂, h₃]
  rw [Nat.mul_zero, BitVec.ushiftRight_zero] at h₀
  rw [h₀]

/-- Whole words have the bytes that they were made of. -/
theorem bytes_of_words_of {n : Nat} {bs : List (BitVec 8)} (hlength : bs.length = 4 * n) :
    bytes_of (words_of bs) = bs ∧ (words_of bs).length = n := by
  induction n generalizing bs with
  | zero =>
    have hnil : bs = [] := List.length_eq_zero_iff.mp (by omega)
    rw [hnil]
    exact ⟨rfl, rfl⟩
  | succ n ih =>
    match bs, hlength with
    | b₀ :: b₁ :: b₂ :: b₃ :: rest, hlength =>
      simp only [List.length_cons] at hlength
      obtain ⟨hbytes, hcount⟩ := @ih rest (by omega)
      rw [words_of, bytes_of_cons, bytes_of_word_append, hbytes, List.length_cons, hcount]
      exact ⟨rfl, rfl⟩

/-- The word of its own bytes. -/
theorem words_of_bytes_of_word (w : BitVec 32) : words_of (bytes_of [w]) = [w] := by
  have hword : ((w >>> 24).setWidth 8 ++ (w >>> 16).setWidth 8 ++ (w >>> 8).setWidth 8 ++ w.setWidth 8 : BitVec 32) = w := by
    apply BitVec.eq_of_getLsbD_eq
    intro i hi
    simp only [BitVec.getLsbD_append, BitVec.getLsbD_setWidth, BitVec.getLsbD_ushiftRight]
    grind
  rw [bytes_of_cons]
  exact congrArg (fun w => [w]) hword

end machine.wordbytes
