import Mathlib.Data.Nat.ModEq
import Tcc.Machine.Align

/-! Blocks that are placed one behind the other, both in a memory and in a file. A block may fill
    less of the file than of the memory, and one that opens a segment may go to the next page. -/

namespace machine.placement

structure Block where
  align : Nat
  size : Nat
  filled : Nat
  opens : Prop
  [dec : Decidable opens]
  filled_le : filled ≤ size
  align_pos : 0 < align

instance (b : Block) : Decidable b.opens := b.dec

/-- Where the next block goes; `opened` is the number of segments. -/
structure Cursor where
  addr : Nat
  offset : Nat
  opened : Nat

variable (page : Nat)

def Cursor.hop (k : Cursor) (b : Block) : Nat :=
  if b.opens ∧ k.opened ≠ 0 ∧ k.addr % page ≠ 0 then k.addr + page else k.addr

/-- The cursor at the start of a block. -/
def Cursor.start (k : Cursor) (b : Block) : Cursor where
  addr := align_up b.align (k.hop page b)
  offset := k.offset + (align_up b.align (k.hop page b) - k.hop page b)
  opened := if b.opens then k.opened + 1 else k.opened

/-- The cursor behind a block. -/
def Cursor.pass (k : Cursor) (b : Block) : Cursor where
  addr := (k.start page b).addr + b.size
  offset := (k.start page b).offset + b.filled
  opened := (k.start page b).opened

def Cursor.walk (k : Cursor) (bs : List Block) : Cursor := bs.foldl (Cursor.pass page) k

/-- The bytes that are in the memory only. -/
def unfilled (bs : List Block) : Nat := (bs.map fun b => b.size - b.filled).sum

/-- What the blocks take of the memory at most. -/
def room (bs : List Block) : Nat := (bs.map fun b => b.size + b.align + page).sum

/-- What they take of the file at most. -/
def file_room (bs : List Block) : Nat := (bs.map fun b => b.filled + b.align).sum

theorem le_align_up (b : Block) (x : Nat) : x ≤ align_up b.align x :=
  (isLeast_align_up b.align_pos x).1.1

theorem dvd_align_up (b : Block) (x : Nat) : b.align ∣ align_up b.align x :=
  (isLeast_align_up b.align_pos x).1.2

theorem align_up_lt (b : Block) (x : Nat) : align_up b.align x < x + b.align := by
  have := align_up_le b.align x
  have := b.align_pos
  omega

theorem align_up_eq_iff (b : Block) (x : Nat) : align_up b.align x = x ↔ b.align ∣ x := by
  constructor
  · intro h
    rw [← h]
    exact dvd_align_up b x
  · intro h
    exact le_antisymm ((isLeast_align_up b.align_pos x).2 ⟨le_rfl, h⟩) (le_align_up b x)

theorem Cursor.le_hop (k : Cursor) (b : Block) : k.addr ≤ k.hop page b := by
  unfold Cursor.hop
  split <;> omega

theorem Cursor.hop_le (k : Cursor) (b : Block) : k.hop page b ≤ k.addr + page := by
  unfold Cursor.hop
  split <;> omega

theorem Cursor.hop_of_not_opens {b : Block} (k : Cursor) (hopens : ¬b.opens) : k.hop page b = k.addr :=
  if_neg fun h => hopens h.1

theorem Cursor.hop_modEq (k : Cursor) (b : Block) : k.hop page b ≡ k.addr [MOD page] := by
  unfold Cursor.hop
  split
  · exact Nat.add_modEq_right
  · rfl

theorem Cursor.start_addr_eq (k : Cursor) (b : Block) :
    (k.start page b).addr + k.offset = k.hop page b + (k.start page b).offset := by
  have := le_align_up b (k.hop page b)
  simp only [Cursor.start]
  omega

theorem Cursor.le_start_addr (k : Cursor) (b : Block) : k.addr ≤ (k.start page b).addr :=
  (k.le_hop page b).trans (le_align_up b _)

theorem Cursor.dvd_start_addr (k : Cursor) (b : Block) : b.align ∣ (k.start page b).addr :=
  dvd_align_up b _

theorem Cursor.le_start_offset (k : Cursor) (b : Block) : k.offset ≤ (k.start page b).offset :=
  Nat.le_add_right _ _

theorem Cursor.le_pass_addr (k : Cursor) (b : Block) : k.addr ≤ (k.pass page b).addr :=
  (k.le_start_addr page b).trans (Nat.le_add_right _ _)

theorem Cursor.le_pass_offset (k : Cursor) (b : Block) : k.offset ≤ (k.pass page b).offset :=
  (k.le_start_offset page b).trans (Nat.le_add_right _ _)

theorem Cursor.pass_addr_le (k : Cursor) (b : Block) :
    (k.pass page b).addr ≤ k.addr + (b.size + b.align + page) := by
  have := align_up_lt b (k.hop page b)
  have := k.hop_le page b
  simp only [Cursor.pass, Cursor.start]
  omega

theorem Cursor.pass_offset_le (k : Cursor) (b : Block) :
    (k.pass page b).offset ≤ k.offset + (b.filled + b.align) := by
  have := align_up_lt b (k.hop page b)
  simp only [Cursor.pass, Cursor.start]
  omega

@[simp] theorem Cursor.walk_nil (k : Cursor) : k.walk page [] = k := rfl

@[simp] theorem Cursor.walk_cons (k : Cursor) (b : Block) (bs : List Block) :
    k.walk page (b :: bs) = (k.pass page b).walk page bs := rfl

theorem Cursor.walk_append (k : Cursor) (bs cs : List Block) :
    k.walk page (bs ++ cs) = (k.walk page bs).walk page cs :=
  List.foldl_append

theorem Cursor.le_walk_addr (k : Cursor) (bs : List Block) : k.addr ≤ (k.walk page bs).addr := by
  induction bs generalizing k with
  | nil => exact le_rfl
  | cons b bs ih => exact (k.le_pass_addr page b).trans (ih _)

theorem Cursor.le_walk_offset (k : Cursor) (bs : List Block) : k.offset ≤ (k.walk page bs).offset := by
  induction bs generalizing k with
  | nil => exact le_rfl
  | cons b bs ih => exact (k.le_pass_offset page b).trans (ih _)

theorem Cursor.walk_addr_le (k : Cursor) (bs : List Block) :
    (k.walk page bs).addr ≤ k.addr + room page bs := by
  induction bs generalizing k with
  | nil => exact le_rfl
  | cons b bs ih =>
    have hpass := k.pass_addr_le page b
    have hwalk := ih (k.pass page b)
    simp only [room, List.map_cons, List.sum_cons, Cursor.walk_cons] at hwalk ⊢
    omega

theorem Cursor.walk_offset_le (k : Cursor) (bs : List Block) :
    (k.walk page bs).offset ≤ k.offset + file_room bs := by
  induction bs generalizing k with
  | nil => exact le_rfl
  | cons b bs ih =>
    have hpass := k.pass_offset_le page b
    have hwalk := ih (k.pass page b)
    simp only [file_room, List.map_cons, List.sum_cons, Cursor.walk_cons] at hwalk ⊢
    omega

theorem Cursor.le_walk_opened (k : Cursor) (bs : List Block) : k.opened ≤ (k.walk page bs).opened := by
  induction bs generalizing k with
  | nil => exact le_rfl
  | cons b bs ih =>
    refine le_trans ?_ (ih (k.pass page b))
    show k.opened ≤ if b.opens then k.opened + 1 else k.opened
    split <;> omega

theorem Cursor.walk_opened_pos (k : Cursor) {b : Block} (hopens : b.opens) (bs : List Block) :
    0 < (k.walk page (b :: bs)).opened := by
  refine lt_of_lt_of_le ?_ ((k.pass page b).le_walk_opened page bs)
  show 0 < if b.opens then k.opened + 1 else k.opened
  rw [if_pos hopens]
  exact Nat.succ_pos _

/-- In a segment the addresses run ahead of the offsets by what is not in the file. -/
theorem Cursor.walk_addr_eq (k : Cursor) {bs : List Block} (hopens : ∀ b ∈ bs, ¬b.opens) :
    (k.walk page bs).addr + k.offset = k.addr + (k.walk page bs).offset + unfilled bs := by
  induction bs generalizing k with
  | nil => rfl
  | cons b bs ih =>
    have hpass := k.start_addr_eq page b
    rw [k.hop_of_not_opens page (hopens b List.mem_cons_self)] at hpass
    have hwalk := ih (k.pass page b) fun b' hb' => hopens b' (List.mem_cons_of_mem _ hb')
    have hle := b.filled_le
    simp only [unfilled, List.map_cons, List.sum_cons, Cursor.walk_cons] at hwalk ⊢
    simp only [Cursor.pass] at hwalk ⊢
    omega

/-- Between segments they do so up to a number of pages. -/
theorem Cursor.walk_modEq (k : Cursor) (bs : List Block) :
    (k.walk page bs).addr + k.offset ≡ k.addr + (k.walk page bs).offset + unfilled bs [MOD page] := by
  induction bs generalizing k with
  | nil => rfl
  | cons b bs ih =>
    have hpass : (k.pass page b).addr + k.offset ≡ k.addr + (k.pass page b).offset + (b.size - b.filled) [MOD page] := by
      have hstart := k.start_addr_eq page b
      have hle := b.filled_le
      have heq : (k.pass page b).addr + k.offset =
          k.hop page b + ((k.pass page b).offset + (b.size - b.filled)) := by
        simp only [Cursor.pass]
        omega
      rw [heq, Nat.add_assoc]
      exact (k.hop_modEq page b).add_right _
    have hsum : unfilled (b :: bs) = b.size - b.filled + unfilled bs := by
      simp only [unfilled, List.map_cons, List.sum_cons]
    rw [Cursor.walk_cons, hsum]
    refine Nat.ModEq.add_right_cancel' (k.pass page b).offset ?_
    calc ((k.pass page b).walk page bs).addr + k.offset + (k.pass page b).offset
        = ((k.pass page b).walk page bs).addr + (k.pass page b).offset + k.offset := by omega
      _ ≡ (k.pass page b).addr + ((k.pass page b).walk page bs).offset + unfilled bs + k.offset [MOD page] :=
          (ih _).add_right _
      _ = (k.pass page b).addr + k.offset + (((k.pass page b).walk page bs).offset + unfilled bs) := by omega
      _ ≡ k.addr + (k.pass page b).offset + (b.size - b.filled) +
            (((k.pass page b).walk page bs).offset + unfilled bs) [MOD page] := hpass.add_right _
      _ = k.addr + ((k.pass page b).walk page bs).offset + (b.size - b.filled + unfilled bs) +
            (k.pass page b).offset := by omega

/-- The file does not grow over blocks that fill nothing of it and need no padding. -/
theorem Cursor.walk_offset_eq_iff (k : Cursor) (bs : List Block) (hopens : ∀ b ∈ bs, ¬b.opens) :
    (k.walk page bs).offset = k.offset ↔
      ∀ p b q, bs = p ++ b :: q → b.filled = 0 ∧ b.align ∣ (k.walk page p).addr := by
  induction bs generalizing k with
  | nil => exact ⟨fun _ p b q h => absurd h (by simp), fun _ => rfl⟩
  | cons b bs ih =>
    have hhop := k.hop_of_not_opens page (hopens b List.mem_cons_self)
    have hle := (k.pass page b).le_walk_offset page bs
    have hrest := ih (k.pass page b) fun b' hb' => hopens b' (List.mem_cons_of_mem _ hb')
    have hpass : (k.pass page b).offset = k.offset ↔ b.filled = 0 ∧ b.align ∣ k.addr := by
      rw [← align_up_eq_iff]
      have := le_align_up b k.addr
      simp only [Cursor.pass, Cursor.start, hhop]
      omega
    have hle' := k.le_pass_offset page b
    rw [Cursor.walk_cons]
    constructor
    · intro h p b' q heq
      cases p with
      | nil =>
        cases heq
        exact hpass.mp (by omega)
      | cons x p =>
        obtain ⟨rfl, rfl⟩ := List.cons.inj heq
        exact hrest.mp (by omega) p b' q rfl
    · intro h
      rw [hrest.mpr fun p b' q heq => h (b :: p) b' q (by rw [heq, List.cons_append]),
        hpass.mpr (h [] b bs rfl)]

theorem room_append (bs cs : List Block) : room page (bs ++ cs) = room page bs + room page cs := by
  simp only [room, List.map_append, List.sum_append]

theorem file_room_append (bs cs : List Block) : file_room (bs ++ cs) = file_room bs + file_room cs := by
  simp only [file_room, List.map_append, List.sum_append]

end machine.placement
