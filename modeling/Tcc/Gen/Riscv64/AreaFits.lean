import Tcc.Gen.Riscv64.AreaLayout

open machine

namespace tcc.riscv64

open BType

instance (a : CallArg) : Decidable (KeepsOffset a) := inferInstanceAs (Decidable (_ → _))

instance decidableHalvesAligned : ∀ us ofs, Decidable (HalvesAligned us ofs)
  | [], _ => isTrue trivial
  | .none :: us, ofs => decidableHalvesAligned us ofs
  | .half :: us, ofs => have := decidableHalvesAligned us (ofs + 8); inferInstanceAs (Decidable (_ ∧ _))
  | .stacked size align :: us, ofs =>
    decidableHalvesAligned us (align_up (xalign align) ofs + size)

/-- A use of the stack has one or two words and a power of two as its alignment. -/
def Use.Ok : Use → Prop
  | .stacked size align => 0 < size ∧ size ≤ 16 ∧ align ∣ size ∧ ∃ k, align = 2 ^ k
  | _ => True

theorem use_ok (a : CallArg) (s : Counters) : (use a s).Ok := by
  cases huse : use a s with
  | none => trivial
  | half => trivial
  | stacked size align =>
    obtain ⟨hpos, rfl, rfl⟩ := use_stacked huse
    refine ⟨hpos, ?_, ?_, ?_⟩
    · split <;> omega
    · split
      · exact dvd_rfl
      · exact a.align_dvd
    · split
      · exact ⟨3, rfl⟩
      · exact a.align_pow

theorem uses_ok (as : List CallArg) (s : Counters) : ∀ u ∈ uses as s, u.Ok := by
  induction as generalizing s with
  | nil => nofun
  | cons a as ih =>
    rw [uses]
    intro u hu
    rcases List.mem_cons.mp hu with rfl | hu
    · exact use_ok a s
    · cases harg : size_arg a s with
      | none => simp [harg] at hu
      | some r => exact ih r.2 u (by simpa [harg] using hu)

/-- The alignment of a use is at most that of the stack, and then it is all of the use. -/
theorem Use.Ok.align {size align : Nat} (h : (Use.stacked size align).Ok) :
    (align = 16 ∧ size = 16 ∧ xalign align = 16) ∨ (align ∣ 8 ∧ xalign align = 8) := by
  obtain ⟨hpos, hle, hdvd, k, rfl⟩ := h
  have hpow := Nat.le_of_dvd hpos hdvd
  have hk : k < 5 := (Nat.pow_lt_pow_iff_right (by decide : 1 < 2)).mp (by omega : 2 ^ k < 2 ^ 5)
  by_cases h4 : k = 4
  · subst h4
    exact Or.inl ⟨rfl, by omega, rfl⟩
  · have h3 : 2 ^ k ∣ 2 ^ 3 := pow_dvd_pow 2 (by omega)
    have hle8 := Nat.le_of_dvd (by decide) h3
    refine Or.inr ⟨h3, ?_⟩
    unfold xalign
    split <;> omega

theorem Use.Ok.dvd_16 {size align : Nat} (h : (Use.stacked size align).Ok) : align ∣ 16 := by
  rcases h.align with ⟨rfl, -, -⟩ | ⟨hdvd, -⟩
  · exact dvd_rfl
  · exact hdvd.trans (by decide)

theorem align_dvd_xalign {align : Nat} (hpow : ∃ k, align = 2 ^ k) : align ∣ xalign align := by
  obtain ⟨k, rfl⟩ := hpow
  unfold xalign
  split
  · rename_i hlt
    have hk : k < 3 := (Nat.pow_lt_pow_iff_right (by decide : 1 < 2)).mp (by omega : 2 ^ k < 2 ^ 3)
    exact pow_dvd_pow 2 hk.le
  · exact dvd_rfl

theorem use_regions_chain (us : List Use) (ofs : Nat) :
    Chain ofs (use_regions us ofs) (uses_end us ofs) := by
  induction us generalizing ofs with
  | nil => exact le_rfl
  | cons u us ih =>
    cases u with
    | none => exact ih ofs
    | half => exact ⟨le_rfl, ih (ofs + 8)⟩
    | stacked size align =>
      exact ⟨Int.ofNat_le.mpr (le_align_up_xalign align ofs), ih (align_up (xalign align) ofs + size)⟩

theorem copy_regions_chain (adj : Nat) (as : List CallArg) (t : Nat) :
    Chain (adj + t : Nat) (copy_regions adj as t) (adj + copies_end as t : Nat) := by
  induction as generalizing t with
  | nil => exact le_rfl
  | cons a as ih =>
    rw [copy_regions, copies_end]
    by_cases hsize : 16 < a.size
    · rw [if_pos hsize, if_pos hsize]
      refine ⟨Int.ofNat_le.mpr (Nat.add_le_add_left (le_align_up_xalign _ _) adj), ?_⟩
      have hrest := ih (align_up (xalign a.align) t + a.size)
      rw [← Nat.add_assoc] at hrest
      exact hrest
    · rw [if_neg hsize, if_neg hsize]
      exact ih t

/-- On the stack everything is aligned, halves apart. -/
theorem use_regions_aligned {us : List Use} (hus : ∀ u ∈ us, u.Ok) (ofs : Nat) :
    (∀ r ∈ use_regions us ofs, r.Aligned 16) ↔ HalvesAligned us ofs := by
  induction us generalizing ofs with
  | nil => exact iff_of_true nofun trivial
  | cons u us ih =>
    have ih' := ih (fun u hu => hus u (List.mem_cons_of_mem _ hu))
    cases u with
    | none => exact ih' ofs
    | half =>
      have hhalf : (Region.mk ofs 8 8).Aligned 16 ↔ 8 ∣ ofs := by
        constructor
        · intro h
          have hzero := h 0 (dvd_zero _)
          rw [Int.zero_add] at hzero
          exact Int.natCast_dvd_natCast.mp hzero
        · intro h
          exact Region.aligned_of_dvd (by decide : 8 ∣ 16) (Int.natCast_dvd_natCast.mpr h)
      rw [use_regions, HalvesAligned, List.forall_mem_cons, hhalf, ih']
    | stacked size align =>
      have hok := hus _ List.mem_cons_self
      have halign : (Region.mk (align_up (xalign align) ofs : Nat) size align).Aligned 16 :=
        Region.aligned_of_dvd hok.dvd_16 (Int.natCast_dvd_natCast.mpr
          ((align_dvd_xalign hok.2.2.2).trans (Dvd.intro_left _ rfl)))
      rw [use_regions, HalvesAligned, List.forall_mem_cons, ih']
      exact and_iff_right halign

/-- A copy is aligned when its type does not need more than the stack. -/
theorem copy_regions_aligned {adj : Nat} (hadj : 16 ∣ adj) (as : List CallArg) (t : Nat) :
    (∀ r ∈ copy_regions adj as t, r.Aligned 16) ↔ ∀ a ∈ as, 16 < a.size → a.align ≤ 16 := by
  induction as generalizing t with
  | nil => exact iff_of_true nofun nofun
  | cons a as ih =>
    rw [copy_regions, List.forall_mem_cons]
    by_cases hsize : 16 < a.size
    · have hcopy : (Region.mk (adj + align_up (xalign a.align) t : Nat) a.size a.align).Aligned 16 ↔
          a.align ≤ 16 := by
        constructor
        · exact fun h => Nat.le_of_dvd (by decide) h.dvd
        · intro hle
          obtain ⟨k, hk⟩ := a.align_pow
          change a.align = 2 ^ k at hk
          have hdvd : a.align ∣ 16 := by
            rw [hk] at hle ⊢
            exact pow_dvd_pow 2 ((Nat.pow_le_pow_iff_right (by decide)).mp hle : k ≤ 4)
          refine Region.aligned_of_dvd hdvd (Int.natCast_dvd_natCast.mpr ?_)
          exact dvd_add (hdvd.trans hadj)
            ((align_dvd_xalign a.align_pow).trans (Dvd.intro_left _ rfl))
      rw [if_pos hsize, List.forall_mem_cons, hcopy, ih]
      exact and_congr_left' ⟨fun h _ => h, fun h => h hsize⟩
    · rw [if_neg hsize, ih]
      exact (and_iff_right (fun h => absurd h hsize)).symm

theorem align_up_eq {a : Nat} (x : Nat) : align_up a x = (x + a - 1) / a * a := rfl

/-- With the halves aligned, the words reserved and the words left out add up to the end. -/
theorem uses_end_words {us : List Use} (hus : ∀ u ∈ us, u.Ok) {ofs : Nat}
    (hhalves : HalvesAligned us ofs) :
    (uses_end us ofs + 7) / 8 =
      (ofs + 7) / 8 + (us.map Use.words).sum + skipped us ((ofs + 7) / 8) := by
  induction us generalizing ofs with
  | nil => rfl
  | cons u us ih =>
    have hus' : ∀ u ∈ us, u.Ok := fun u hu => hus u (List.mem_cons_of_mem _ hu)
    cases u with
    | none =>
      rw [uses_end, ih hus' hhalves, skipped, List.map_cons, List.sum_cons, Use.words, Nat.zero_add]
    | half =>
      rw [uses_end, ih hus' hhalves.2, skipped, List.map_cons, List.sum_cons, Use.words,
        Nat.add_right_comm ofs 8 7, Nat.add_div_right _ (by decide : 0 < 8)]
      omega
    | stacked size align =>
      rw [uses_end, ih hus' hhalves, skipped, List.map_cons, List.sum_cons, Use.words]
      have hnext : (align_up (xalign align) ofs + size + 7) / 8 = (ofs + 7) / 8 +
          (if align = 16 then (ofs + 7) / 8 % 2 else 0) + align_up (xalign align) size / 8 := by
        rcases (hus _ List.mem_cons_self).align with ⟨rfl, rfl, hxalign⟩ | ⟨hdvd, hxalign⟩
        · rw [hxalign, if_pos rfl, align_up_eq, align_up_eq]
          omega
        · have hle := Nat.le_of_dvd (by decide) hdvd
          rw [hxalign, if_neg (by omega), align_up_eq, align_up_eq]
          omega
      rw [hnext]
      omega

/-- The outgoing area holds what is stored there exactly when rounding makes up for what was left
    out for alignment. -/
theorem uses_end_le_iff {us : List Use} (hus : ∀ u ∈ us, u.Ok) (hhalves : HalvesAligned us 0) :
    uses_end us 0 ≤ align_up 16 (8 * (us.map Use.words).sum) ↔
      skipped us 0 ≤ (us.map Use.words).sum % 2 := by
  have hwords := uses_end_words hus hhalves
  have hzero : (0 + 7) / 8 = 0 := rfl
  rw [hzero, Nat.zero_add] at hwords
  rw [align_up_eq]
  omega

/-- Where the uses go beyond a 16-byte boundary, one of them holds the byte there. -/
theorem use_regions_cross {us : List Use} (hus : ∀ u ∈ us, u.Ok) {ofs n : Nat} (hn : 16 ∣ n)
    (hofs : ofs ≤ n) (hend : n < uses_end us ofs) :
    ∃ r ∈ use_regions us ofs, r.start ≤ n ∧ n < r.stop := by
  induction us generalizing ofs with
  | nil =>
    rw [uses_end] at hend
    omega
  | cons u us ih =>
    have hus' : ∀ u ∈ us, u.Ok := fun u hu => hus u (List.mem_cons_of_mem _ hu)
    cases u with
    | none => exact ih hus' hofs hend
    | half =>
      by_cases hnext : ofs + 8 ≤ n
      · obtain ⟨r, hr, hcross⟩ := ih hus' hnext hend
        exact ⟨r, List.mem_cons_of_mem _ hr, hcross⟩
      · refine ⟨_, List.mem_cons_self, ?_, ?_⟩ <;> simp only [Region.stop] <;> omega
    | stacked size align =>
      have hstart : align_up (xalign align) ofs ≤ n := by
        refine (isLeast_align_up (xalign_pos align) ofs).2 ⟨hofs, ?_⟩
        rcases (hus _ List.mem_cons_self).align with ⟨-, -, hxalign⟩ | ⟨-, hxalign⟩
        · rw [hxalign]
          exact hn
        · rw [hxalign]
          exact dvd_trans (by decide) hn
      by_cases hnext : align_up (xalign align) ofs + size ≤ n
      · obtain ⟨r, hr, hcross⟩ := ih hus' hnext hend
        exact ⟨r, List.mem_cons_of_mem _ hr, hcross⟩
      · refine ⟨_, List.mem_cons_self, ?_, ?_⟩ <;> simp only [Region.stop] <;> omega

/-- The first copy starts the temporaries. -/
theorem copy_regions_first {as : List CallArg} (hend : 0 < copies_end as 0) (adj : Nat) :
    ∃ c ∈ copy_regions adj as 0, c.start = adj ∧ 0 < c.size := by
  induction as with
  | nil =>
    rw [copies_end] at hend
    omega
  | cons a as ih =>
    rw [copy_regions]
    rw [copies_end] at hend
    by_cases hsize : 16 < a.size
    · rw [if_pos hsize]
      have hzero : align_up (xalign a.align) 0 = 0 := by
        rw [align_up_eq, Nat.div_eq_of_lt (by have := xalign_pos a.align; omega), Nat.zero_mul]
      refine ⟨_, List.mem_cons_self, ?_, Nat.zero_lt_of_lt hsize⟩
      simp only [hzero, Nat.add_zero]
    · rw [if_neg hsize] at hend ⊢
      exact ih hend

end tcc.riscv64
