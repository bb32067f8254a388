import Tcc.Pp.Cstr

/-! The formatted append to a string. -/

namespace tcc.pp

/-- The platform's `vsnprintf` for one format and its arguments: what is called with the memory
    at its first argument and with the size returns its result and that memory. -/
structure Vsnprintf where
  vsnprintf : List Byte → Nat → Int × List Byte
  length_vsnprintf : ∀ data size, (vsnprintf data size).2.length = data.length

/-- C99 for a format and arguments whose whole output is `output`: its length is returned, at
    most `size` bytes are written, and what fits together with its NUL is written whole. -/
structure Vsnprintf.Formats (print : Vsnprintf) (output : List Byte) : Prop where
  returns : ∀ data size, (print.vsnprintf data size).1 = output.length
  bounded : ∀ data size, (print.vsnprintf data size).2.drop size = data.drop size
  whole : ∀ data size, size ≤ data.length → output.length < size →
    (print.vsnprintf data size).2.take output.length = output

variable (mem : Realloc Byte) (print : Vsnprintf)

theorem length_printed (cstr : CString) :
    (print.vsnprintf (cstr.data.drop cstr.size) (cstr.size_allocated - cstr.size)).2.length =
      cstr.size_allocated - cstr.size := by
  rw [print.length_vsnprintf, List.length_drop, CString.size_allocated]

/-- One call of `vsnprintf` behind the content: what it returns and the string after it. -/
def cstr_print (cstr : CString) : Int × CString :=
  let printed := print.vsnprintf (cstr.data.drop cstr.size) (cstr.size_allocated - cstr.size)
  (printed.1, cstr.write printed.2 (length_printed print cstr))

theorem size_allocated_cstr_print (cstr : CString) :
    (cstr_print print cstr).2.size_allocated = cstr.size_allocated :=
  CString.size_allocated_write _ _ (length_printed print cstr)

/-- The loop of `cstr_vprintf`, with its guess of the room. -/
def cstr_vprintf_loop : Nat → Nat → CString → Option (Int × CString)
  | 0, _, _ => none
  | turns + 1, size, cstr =>
    if is_int (size + cstr.size) then
      match cstr_reserve mem cstr (size + cstr.size) with
      | none => none
      | some grown =>
        let room := grown.size_allocated - grown.size
        let printed := cstr_print print grown
        if hfits : 0 < printed.1 ∧ printed.1 < room then
          some (printed.1, printed.2.advance printed.1.toNat (by
            have hroom : printed.2.size_allocated - printed.2.size = room := by
              rw [size_allocated_cstr_print]
              rfl
            omega))
        else if is_int (room * 2) then cstr_vprintf_loop turns (room * 2) printed.2
        else none
    else none

/-- `cstr_vprintf`, cut off after a number of turns of its loop. -/
def cstr_vprintf (turns : Nat) (cstr : CString) : Option (Int × CString) :=
  cstr_vprintf_loop mem print turns 80 cstr

/-- It returns, and the bytes are behind what the string held. -/
def Appends (cstr : CString) (output : List Byte) : Prop :=
  ∃ turns appended, cstr_vprintf mem print turns cstr = some ((output.length : Int), appended) ∧
    appended.content = cstr.content ++ output

variable {mem print}

theorem content_cstr_print (cstr : CString) : (cstr_print print cstr).2.content = cstr.content :=
  CString.content_write _ _ (length_printed print cstr)

/-- What fits is behind the content when the size is moved over it. -/
theorem content_advance_print {output : List Byte} (hformats : print.Formats output) (cstr : CString)
    (hfits : output.length < cstr.size_allocated - cstr.size) {len : Nat} (hlength : len = output.length)
    (hlen : len ≤ (cstr_print print cstr).2.size_allocated - (cstr_print print cstr).2.size) :
    ((cstr_print print cstr).2.advance len hlen).content = cstr.content ++ output := by
  subst hlength
  have hroom : cstr.size_allocated - cstr.size ≤ (cstr.data.drop cstr.size).length := by
    rw [List.length_drop, CString.size_allocated]
  have hwhole := hformats.whole (cstr.data.drop cstr.size) _ hroom hfits
  exact (CString.content_advance_write _ _ _ (length_printed print cstr) _).trans (by rw [hwhole])

section turns

variable {output : List Byte} {size : Nat} {cstr grown : CString} (turns : Nat)

/-- A turn that leaves the loop. -/
theorem cstr_vprintf_loop_of_fits (hformats : print.Formats output)
    (hint : is_int (size + cstr.size)) (hreserve : cstr_reserve mem cstr (size + cstr.size) = some grown)
    (hpos : 0 < output.length) (hfits : output.length < grown.size_allocated - grown.size) :
    ∃ appended, cstr_vprintf_loop mem print (turns + 1) size cstr = some ((output.length : Int), appended) ∧
      appended.content = cstr.content ++ output := by
  have hreturns : (cstr_print print grown).1 = output.length := hformats.returns _ _
  rw [cstr_vprintf_loop, if_pos hint, hreserve]
  simp only [hreturns]
  rw [dif_pos (by omega)]
  refine ⟨_, rfl, ?_⟩
  rw [content_advance_print hformats grown hfits (by omega), (cstr_reserve_spec mem hreserve).2.2.2]

/-- A turn after which the loop goes on. -/
theorem cstr_vprintf_loop_of_not_fits (hformats : print.Formats output)
    (hint : is_int (size + cstr.size)) (hreserve : cstr_reserve mem cstr (size + cstr.size) = some grown)
    (hnot : ¬ (0 < output.length ∧ output.length < grown.size_allocated - grown.size)) :
    cstr_vprintf_loop mem print (turns + 1) size cstr =
      if is_int ((grown.size_allocated - grown.size) * 2) then
        cstr_vprintf_loop mem print turns ((grown.size_allocated - grown.size) * 2)
          (cstr_print print grown).2
      else none := by
  have hreturns : (cstr_print print grown).1 = output.length := hformats.returns _ _
  have hstay : ¬ (0 < (cstr_print print grown).1 ∧
      (cstr_print print grown).1 < ((grown.size_allocated - grown.size : Nat) : Int)) := by
    rw [hreturns]
    omega
  rw [cstr_vprintf_loop, if_pos hint, hreserve]
  simp only [dif_neg hstay]

end turns

/-- The guess is at most what can be allocated, and the output is not empty and fits into that. -/
structure Fits (output : List Byte) (size : Nat) (cstr : CString) : Prop where
  pos : 0 < output.length
  guess : size + cstr.size ≤ 2 ^ 30
  room : cstr.size + output.length < 2 ^ 30

/-- The loop ends: each turn that goes on allocates more. -/
theorem exists_cstr_vprintf_loop {output : List Byte} (hformats : print.Formats output) {size : Nat}
    {cstr : CString} (hfits : Fits output size cstr) (hsize : 0 < size) :
    ∃ turns appended, cstr_vprintf_loop mem print turns size cstr = some ((output.length : Int), appended) ∧
      appended.content = cstr.content ++ output := by
  induction hleft : 2 ^ 30 + 1 - (size + cstr.size) using Nat.strong_induction_on generalizing size cstr with
  | _ left ih =>
    have hint : is_int (size + cstr.size) := lt_of_le_of_lt hfits.guess (by decide)
    obtain ⟨grown, hreserve⟩ := (cstr_reserve_isSome mem cstr).mpr hfits.guess
    obtain ⟨hroom, -, hsame, hcontent⟩ := cstr_reserve_spec mem hreserve
    by_cases hlen : output.length < grown.size_allocated - grown.size
    · obtain ⟨appended, hloop, happended⟩ :=
        cstr_vprintf_loop_of_fits 0 hformats hint hreserve hfits.pos hlen
      exact ⟨1, appended, hloop, happended⟩
    · have hbelow : grown.size_allocated < 2 ^ 30 := by
        have := hfits.room
        omega
      have hdouble : 2 * grown.size_allocated ≤ 2 ^ 30 := grown.capacity.double_le (le_refl _) hbelow
      have hnext : Fits output ((grown.size_allocated - grown.size) * 2) (cstr_print print grown).2 := by
        refine ⟨hfits.pos, ?_, ?_⟩
        · change (grown.size_allocated - grown.size) * 2 + grown.size ≤ 2 ^ 30
          omega
        · change grown.size + output.length < 2 ^ 30
          rw [hsame]
          exact hfits.room
      have hmore : size + cstr.size < (grown.size_allocated - grown.size) * 2 + grown.size := by omega
      have hdecrease : 2 ^ 30 + 1 - ((grown.size_allocated - grown.size) * 2 +
          (cstr_print print grown).2.size) < left := by
        change 2 ^ 30 + 1 - ((grown.size_allocated - grown.size) * 2 + grown.size) < left
        have := hfits.guess
        omega
      obtain ⟨turns, appended, hloop, happended⟩ := ih _ hdecrease hnext (by omega) rfl
      refine ⟨turns + 1, appended, ?_, ?_⟩
      · rw [cstr_vprintf_loop_of_not_fits turns hformats hint hreserve (by omega), if_pos, hloop]
        rw [is_int]
        omega
      · rw [happended, content_cstr_print, hcontent]

/-- A loop that ends had a guess and an output that fit. -/
theorem fits_of_cstr_vprintf_loop {output : List Byte} (hformats : print.Formats output)
    {turns size : Nat} {cstr : CString} {result : Int × CString}
    (hloop : cstr_vprintf_loop mem print turns size cstr = some result) : Fits output size cstr := by
  induction turns generalizing size cstr with
  | zero => cases hloop
  | succ turns ih =>
    have hint : is_int (size + cstr.size) := by
      by_contra hnot
      rw [cstr_vprintf_loop, if_neg hnot] at hloop
      cases hloop
    cases hreserve : cstr_reserve mem cstr (size + cstr.size) with
    | none =>
      rw [cstr_vprintf_loop, if_pos hint, hreserve] at hloop
      cases hloop
    | some grown =>
      have hguess := (cstr_reserve_isSome mem cstr).mp ⟨grown, hreserve⟩
      obtain ⟨-, -, hsame, -⟩ := cstr_reserve_spec mem hreserve
      by_cases hleave : 0 < output.length ∧ output.length < grown.size_allocated - grown.size
      · have hcapacity : grown.size_allocated ≤ 2 ^ 30 := grown.capacity.le
        exact ⟨hleave.1, hguess, by omega⟩
      · rw [cstr_vprintf_loop_of_not_fits turns hformats hint hreserve hleave] at hloop
        by_cases hroom : is_int ((grown.size_allocated - grown.size) * 2)
        · rw [if_pos hroom] at hloop
          obtain ⟨hpos, -, hlast⟩ := ih hloop
          have hsize : (cstr_print print grown).2.size = cstr.size := hsame
          exact ⟨hpos, hguess, by omega⟩
        · rw [if_neg hroom] at hloop
          cases hloop

/-- The append returns, with the bytes behind what the string held, exactly for an output that is
    not empty, where the first guess of 80 bytes and the output with its NUL are within the
    largest size of a string. -/
theorem cstr_vprintf_appends_iff {output : List Byte} (hformats : print.Formats output)
    (cstr : CString) :
    Appends mem print cstr output ↔
      output ≠ [] ∧ cstr.size + 80 ≤ 2 ^ 30 ∧ cstr.size + output.length < 2 ^ 30 := by
  constructor
  · rintro ⟨turns, appended, hloop, -⟩
    obtain ⟨hpos, hguess, hroom⟩ := fits_of_cstr_vprintf_loop hformats hloop
    exact ⟨List.ne_nil_of_length_pos hpos, by omega, hroom⟩
  · rintro ⟨hne, hguess, hroom⟩
    exact exists_cstr_vprintf_loop hformats
      ⟨List.length_pos_iff.mpr hne, by omega, hroom⟩ (by decide)

/-- A `vsnprintf` that writes what fits, and the NUL behind it. -/
def printing (output : List Byte) : Vsnprintf where
  vsnprintf data size :=
    let written := ((output.take (size - 1)) ++ [0]).take size
    (output.length, written.take data.length ++ data.drop written.length)
  length_vsnprintf := by
    intro data size
    simp only [List.length_append, List.length_take, List.length_drop]
    omega

theorem printing_formats (output : List Byte) : (printing output).Formats output where
  returns _ _ := rfl
  bounded := by
    intro data size
    have hlength := List.length_take_le size (output.take (size - 1) ++ [0])
    simp only [printing]
    generalize (output.take (size - 1) ++ [0]).take size = written at hlength ⊢
    by_cases hshort : data.length ≤ size
    · rw [List.drop_eq_nil_of_le hshort, List.drop_eq_nil_of_le]
      simp only [List.length_append, List.length_take, List.length_drop]
      omega
    · rw [List.take_of_length_le (by omega), List.drop_append, List.drop_eq_nil_of_le hlength,
        List.nil_append, List.drop_drop, Nat.add_sub_cancel' hlength]
  whole := by
    intro data size hsize hlen
    have hwritten : (output.take (size - 1) ++ [0]).take size = output ++ [0] := by
      rw [List.take_of_length_le (by omega : output.length ≤ size - 1), List.take_of_length_le]
      rw [List.length_append, List.length_singleton]
      omega
    have hdata : (output ++ [0]).take data.length = output ++ [0] := by
      rw [List.take_of_length_le]
      rw [List.length_append, List.length_singleton]
      omega
    simp only [printing]
    rw [hwritten, hdata, List.append_assoc, List.take_left]

theorem cstr_vprintf_appends_word :
    Appends (filled 0) (printing [104, 105]) cstr_new [104, 105] :=
  (cstr_vprintf_appends_iff (printing_formats [104, 105]) cstr_new).mpr (by decide)

/-- An append of nothing does not return. -/
theorem empty_append_does_not_return :
    (printing []).Formats [] ∧ ¬ Appends (filled 0) (printing []) cstr_new [] := by
  refine ⟨printing_formats [], ?_⟩
  rintro ⟨turns, appended, hloop, -⟩
  exact absurd (fits_of_cstr_vprintf_loop (printing_formats []) hloop).pos (by decide)

end tcc.pp
