import Tcc.Gen.Riscv64.AreaSizing

open machine

namespace tcc.riscv64

/-- The ranges for the uses of the outgoing area, the first of them from `ofs` on. -/
def use_regions : List Use → Nat → List Region
  | [], _ => []
  | .none :: us, ofs => use_regions us ofs
  | .half :: us, ofs => ⟨ofs, 8, 8⟩ :: use_regions us (ofs + 8)
  | .stacked size align :: us, ofs =>
    ⟨align_up (xalign align) ofs, size, align⟩ :: use_regions us (align_up (xalign align) ofs + size)

/-- The end of the last of these ranges. -/
def uses_end : List Use → Nat → Nat
  | [], ofs => ofs
  | .none :: us, ofs => uses_end us ofs
  | .half :: us, ofs => uses_end us (ofs + 8)
  | .stacked size align :: us, ofs => uses_end us (align_up (xalign align) ofs + size)

/-- The ranges of the copies, behind an outgoing area of `adj` bytes and `t` bytes of copies. -/
def copy_regions (adj : Nat) : List CallArg → Nat → List Region
  | [], _ => []
  | a :: as, t =>
    if 16 < a.size then
      ⟨(adj + align_up (xalign a.align) t : Nat), a.size, a.align⟩ ::
        copy_regions adj as (align_up (xalign a.align) t + a.size)
    else copy_regions adj as t

/-- The end of the last copy. -/
def copies_end : List CallArg → Nat → Nat
  | [], t => t
  | a :: as, t => copies_end as (if 16 < a.size then align_up (xalign a.align) t + a.size else t)

theorem xalign_pos (align : Nat) : 0 < xalign align := by
  unfold xalign
  split <;> omega

theorem le_align_up_xalign (align x : Nat) : x ≤ align_up (xalign align) x :=
  (isLeast_align_up (xalign_pos align) x).1.1

theorem le_copies_end (as : List CallArg) (t : Nat) : t ≤ copies_end as t := by
  induction as generalizing t with
  | nil => exact le_rfl
  | cons a as ih =>
    refine le_trans ?_ (ih _)
    have hle := le_align_up_xalign a.align t
    split <;> omega

theorem pass_by_reference_tempspace (a : CallArg) (t : Nat) : (pass_by_reference a t).tempspace =
    if 16 < a.size then align_up (xalign a.align) t + a.size else t := by
  unfold pass_by_reference
  split <;> rfl

theorem size_args_cons {a : CallArg} {as : List CallArg} {s s' : Counters} {infos : List (BitVec 32)}
    (h : size_args (a :: as) s = some (infos, s')) : ∃ info s₁ rest, infos = info :: rest ∧
      size_arg a s = some (info, s₁) ∧ size_args as s₁ = some (rest, s') := by
  rw [size_args] at h
  obtain ⟨⟨info, s₁⟩, harg, h⟩ := Option.bind_eq_some_iff.mp h
  obtain ⟨⟨rest, s₂⟩, hargs, h⟩ := Option.map_eq_some_iff.mp h
  cases h
  exact ⟨info, s₁, rest, rfl, harg, hargs⟩

theorem uses_cons {a : CallArg} {s s₁ : Counters} {info : BitVec 32} (h : size_arg a s = some (info, s₁))
    (as : List CallArg) : uses (a :: as) s = use a s :: uses as s₁ := by
  rw [uses, h]
  rfl

/-- The sizes that the first loop adds up. -/
theorem size_args_sized {as : List CallArg} {s s' : Counters} {infos : List (BitVec 32)} (hs : s.Ok)
    (hkeeps : ∀ a ∈ as, KeepsOffset a) (h : size_args as s = some (infos, s')) :
    s'.stack_adj = s.stack_adj + 8 * ((uses as s).map Use.words).sum ∧
      s'.tempspace = copies_end as s.tempspace := by
  induction as generalizing s infos with
  | nil =>
    cases h
    exact ⟨rfl, rfl⟩
  | cons a as ih =>
    obtain ⟨info, s₁, rest, rfl, harg, hargs⟩ := size_args_cons h
    have hsized := size_arg_sized hs (hkeeps a List.mem_cons_self) harg
    obtain ⟨hadj, htemp⟩ := ih hsized.ok (fun b hb => hkeeps b (List.mem_cons_of_mem a hb)) hargs
    rw [hadj, htemp, hsized.stack_adj_eq, hsized.tempspace_eq, uses_cons harg, List.map_cons,
      List.sum_cons, Nat.mul_add, Nat.add_assoc, pass_by_reference_tempspace]
    exact ⟨rfl, rfl⟩

/-- The size and the alignment of what is stacked are those of what is passed. -/
theorem use_stacked {a : CallArg} {s : Counters} {size align : Nat} (h : use a s = .stacked size align) :
    0 < size ∧ size = (if 16 < a.size then 8 else a.size) ∧
      align = (if 16 < a.size then 8 else a.align) := by
  rw [use_eq] at h
  simp only at h
  have hpassed : (pass_by_reference a s.tempspace).size = (if 16 < a.size then 8 else a.size) ∧
      (pass_by_reference a s.tempspace).align = (if 16 < a.size then 8 else a.align) := by
    unfold pass_by_reference
    split <;> exact ⟨rfl, rfl⟩
  split at h
  · cases h
  split at h
  · obtain ⟨rfl, rfl⟩ := Use.stacked.inj h
    exact ⟨by omega, hpassed⟩
  split at h <;> cases h

theorem use_half {a : CallArg} {s : Counters} (hkeeps : KeepsOffset a) (h : use a s = .half) :
    a.size ≤ 16 := by
  rw [use_eq] at h
  simp only at h
  split at h
  · cases h
  split at h
  · cases h
  split at h
  · by_contra hsize
    exact hkeeps (by omega) (And.left ‹Half _ _›)
  · cases h

theorem and_flags_ne_zero (x : BitVec 32) :
    x &&& (64#32 ||| 32#32) ≠ 0#32 ↔ x &&& 64#32 ≠ 0#32 ∨ x &&& 32#32 ≠ 0#32 := by
  rw [BitVec.and_or_distrib_left, ← not_and_or, not_iff_not, BitVec.or_eq_zero_iff]

/-- What is stored for an argument: its copy, if it is passed by reference, and what it has on the
    stack; for a half only the place is chosen. -/
theorem place_arg_sized {a : CallArg} {s s' : Counters} {info : BitVec 32} (h : Sized a s info s')
    (hkeeps : KeepsOffset a) (htemp : copies_end [a] s.tempspace ≤ 2 ^ 24) (adj : Nat) (p : Placing)
    (hsplit : use a s = .half → p.splitofs = 0) :
    place_arg adj a info p = some
      { ofs := uses_end [use a s] p.ofs
        splitofs := if use a s = .half then p.ofs else p.splitofs
        stores := p.stores ++ copy_regions adj [a] s.tempspace ++
          (if use a s = .half then [] else use_regions [use a s] p.ofs) } := by
  have hcopy : 16 < a.size → byref_copy adj a info =
      ⟨(adj + align_up (xalign a.align) s.tempspace : Nat), a.size, a.align⟩ := by
    intro hsize
    rw [copies_end, copies_end, if_pos hsize] at htemp
    rw [byref_copy, h.copy hsize (by omega), Nat.cast_add]
  have hbyref := h.byref
  unfold place_arg
  rw [copy_regions, copy_regions, copy_regions]
  cases huse : use a s with
  | none =>
    have h32 : ¬info &&& 32#32 ≠ 0#32 := by
      rw [h.stacked, huse]
      nofun
    have h16 : ¬info &&& 16#32 ≠ 0#32 := by
      intro h16
      have hhalf := h.half.mp ⟨not_not.mp h32, h16⟩
      rw [huse] at hhalf
      cases hhalf
    by_cases hsize : 16 < a.size
    · rw [if_pos ((and_flags_ne_zero info).mpr (Or.inl (hbyref.mpr hsize)))]
      simp [hbyref.mpr hsize, hsize, h32, hcopy, uses_end, use_regions]
    · rw [if_neg (by rw [and_flags_ne_zero, hbyref]; tauto)]
      simp [hsize, h16, uses_end, use_regions]
  | half =>
    obtain ⟨h32, h16⟩ := h.half.mpr huse
    have hsize : ¬16 < a.size := Nat.not_lt.mpr (use_half hkeeps huse)
    rw [if_neg (by rw [and_flags_ne_zero, hbyref]; tauto), if_pos h16, if_neg (not_not.mpr (hsplit huse))]
    simp [hsize, uses_end]
  | stacked size align =>
    obtain ⟨-, hsize_eq, halign_eq⟩ := use_stacked huse
    have h32 : info &&& 32#32 ≠ 0#32 := by
      rw [h.stacked, huse, pass_by_reference]
      split <;> simp [*]
    rw [if_pos ((and_flags_ne_zero info).mpr (Or.inr h32))]
    by_cases hsize : 16 < a.size
    · rw [if_pos hsize] at hsize_eq halign_eq
      simp [hbyref.mpr hsize, hsize, h32, hcopy, uses_end, use_regions, hsize_eq, halign_eq]
    · rw [if_neg hsize] at hsize_eq halign_eq
      simp [mt hbyref.mp hsize, hsize, h32, uses_end, use_regions, hsize_eq, halign_eq]

theorem split_stores_cons (splitofs : Nat) (info : BitVec 32) (infos : List (BitVec 32)) :
    split_stores splitofs (info :: infos) =
      if info &&& 32#32 = 0#32 ∧ info &&& 16#32 ≠ 0#32 then
        ⟨splitofs, 8, 8⟩ :: split_stores splitofs infos
      else split_stores splitofs infos := by
  unfold split_stores
  rw [List.filter_cons]
  by_cases hhalf : info &&& 32#32 = 0#32 ∧ info &&& 16#32 ≠ 0#32
  · rw [if_pos (decide_eq_true hhalf), if_pos hhalf, List.map_cons]
  · rw [if_neg (by simpa using hhalf), if_neg hhalf]

theorem use_regions_cons (u : Use) (us : List Use) (ofs : Nat) :
    use_regions (u :: us) ofs = use_regions [u] ofs ++ use_regions us (uses_end [u] ofs) := by
  cases u <;> rfl

theorem copy_regions_cons (adj : Nat) (a : CallArg) (as : List CallArg) (t : Nat) :
    copy_regions adj (a :: as) t = copy_regions adj [a] t ++ copy_regions adj as (copies_end [a] t) := by
  rw [copy_regions, copy_regions, copy_regions, copies_end, copies_end]
  split <;> rfl

theorem perm_interleave {α : Type} (p c r u k : List α) :
    (p ++ c ++ r ++ (u ++ k)).Perm (p ++ (r ++ u ++ (c ++ k))) := by
  have hcomm : (c ++ (r ++ u)).Perm (r ++ u ++ c) := List.perm_append_comm
  have happend := (hcomm.append_right k).append_left p
  simpa only [List.append_assoc] using happend

/-- At most one argument is split, and once the integer registers have run out none is. -/
theorem place_args_sized {as : List CallArg} {s s' : Counters} {infos : List (BitVec 32)} (hs : s.Ok)
    (hkeeps : ∀ a ∈ as, KeepsOffset a) (h : size_args as s = some (infos, s'))
    (htemp : s'.tempspace ≤ 2 ^ 24) (adj : Nat) (p : Placing)
    (hsplit : s.areg < 8 → p.splitofs = 0) :
    ∃ p', place_args adj (as.zip infos) p = some p' ∧
      (p'.stores ++ split_stores p'.splitofs infos).Perm
        (p.stores ++ (use_regions (uses as s) p.ofs ++ copy_regions adj as s.tempspace)) ∧
      (8 ≤ s.areg → p'.splitofs = p.splitofs) := by
  induction as generalizing s infos p with
  | nil =>
    cases h
    exact ⟨p, rfl, by rw [uses, use_regions, copy_regions]; exact List.Perm.refl _, fun _ => rfl⟩
  | cons a as ih =>
    obtain ⟨info, s₁, rest, rfl, harg, hargs⟩ := size_args_cons h
    have hkeep := hkeeps a List.mem_cons_self
    have hkeeps' : ∀ b ∈ as, KeepsOffset b := fun b hb => hkeeps b (List.mem_cons_of_mem a hb)
    have hsized := size_arg_sized hs hkeep harg
    have htemp₁ : s₁.tempspace = copies_end [a] s.tempspace :=
      hsized.tempspace_eq.trans (pass_by_reference_tempspace a _)
    have hend : copies_end [a] s.tempspace ≤ 2 ^ 24 := by
      rw [(size_args_sized hsized.ok hkeeps' hargs).2, htemp₁] at htemp
      exact (le_copies_end as _).trans htemp
    have hplace := place_arg_sized hsized hkeep hend adj p
      (fun hhalf => hsplit (hsized.half_areg hhalf).1)
    rw [List.zip_cons_cons, place_args, hplace, Option.bind_some, uses_cons harg,
      use_regions_cons _ (uses as s₁), copy_regions_cons adj a as, ← htemp₁]
    by_cases hhalf : use a s = .half
    · have hareg := hsized.half_areg hhalf
      have hsize : ¬16 < a.size := Nat.not_lt.mpr (use_half hkeep hhalf)
      have hcopy : copy_regions adj [a] s.tempspace = [] := by
        rw [copy_regions, if_neg hsize]
        rfl
      rw [if_pos hhalf, if_pos hhalf, hhalf, hcopy]
      obtain ⟨p', hp', hperm, hkept⟩ := ih hsized.ok hkeeps' hargs
        ⟨uses_end [.half] p.ofs, p.ofs, p.stores ++ [] ++ []⟩ (fun hlt => by omega)
      refine ⟨p', hp', ?_, fun hlt => by omega⟩
      rw [split_stores_cons, if_pos (hsized.half.mpr hhalf), hkept hareg.2.ge]
      rw [hkept hareg.2.ge, List.append_nil, List.append_nil] at hperm
      refine List.perm_middle.trans ((hperm.cons _).trans ?_)
      exact List.perm_middle.symm
    · rw [if_neg hhalf, if_neg hhalf]
      obtain ⟨p', hp', hperm, hkept⟩ := ih hsized.ok hkeeps' hargs
        ⟨uses_end [use a s] p.ofs, p.splitofs, p.stores ++ copy_regions adj [a] s.tempspace ++
          use_regions [use a s] p.ofs⟩ (fun hlt => hsplit (lt_of_le_of_lt hsized.areg_le hlt))
      refine ⟨p', hp', ?_, fun hle => hkept (hle.trans hsized.areg_le)⟩
      rw [split_stores_cons, if_neg (fun hflags => hhalf (hsized.half.mp hflags))]
      exact hperm.trans (perm_interleave _ _ _ _ _)

theorem use_words_pos {a : CallArg} {s : Counters} (h : use a s ≠ .none) : 0 < (use a s).words := by
  cases huse : use a s with
  | none => exact absurd huse h
  | half => exact Nat.one_pos
  | stacked size align =>
    have hpow : ∃ k, align = 2 ^ k := by
      rw [(use_stacked huse).2.2]
      split
      · exact ⟨3, rfl⟩
      · exact a.align_pow
    have hle := le_align_up_xalign align size
    have hdvd : 8 ∣ align_up (xalign align) size :=
      (eight_dvd_xalign hpow).trans (Dvd.intro_left _ rfl)
    have hpos := (use_stacked huse).1
    exact Nat.div_pos (Nat.le_of_dvd (by omega) hdvd) (by decide)

theorem use_regions_eq_nil {as : List CallArg} {s s' : Counters} {infos : List (BitVec 32)}
    (h : size_args as s = some (infos, s')) (hwords : ((uses as s).map Use.words).sum = 0)
    (ofs : Nat) : use_regions (uses as s) ofs = [] := by
  induction as generalizing s infos with
  | nil => rfl
  | cons a as ih =>
    obtain ⟨info, s₁, rest, rfl, harg, hargs⟩ := size_args_cons h
    rw [uses_cons harg, List.map_cons, List.sum_cons] at hwords
    have huse : use a s = .none := by
      by_contra huse
      have hpos := use_words_pos huse
      omega
    rw [uses_cons harg, huse, use_regions]
    exact ih hargs (by omega)

theorem copy_regions_eq_nil {as : List CallArg} {t : Nat} (hend : copies_end as t = 0) (adj : Nat) :
    copy_regions adj as t = [] := by
  induction as generalizing t with
  | nil => rfl
  | cons a as ih =>
    rw [copies_end] at hend
    by_cases hsize : 16 < a.size
    · rw [if_pos hsize] at hend
      have hle := le_copies_end as (align_up (xalign a.align) t + a.size)
      omega
    · rw [if_neg hsize] at hend
      rw [copy_regions, if_neg hsize]
      exact ih hend

/-- The ranges that `gfunc_call` stores to are those of the uses and of the copies. -/
theorem area_stores_eq {args : List CallArg} {s : Counters} {infos : List (BitVec 32)}
    (hkeeps : ∀ a ∈ args, KeepsOffset a) (h : size_args args .start = some (infos, s))
    (htemp : s.tempspace ≤ 2 ^ 24) :
    ∃ rs, area_stores args = some (s.stack_add, rs) ∧
      rs.Perm (use_regions (uses args .start) 0 ++ copy_regions s.adj args 0) := by
  have hstart : Counters.start.Ok := ⟨by decide, by decide⟩
  obtain ⟨p, hp, hperm, -⟩ := place_args_sized hstart hkeeps h htemp s.adj .start (fun _ => rfl)
  have hsized := size_args_sized hstart hkeeps h
  rw [area_stores, h, Option.bind_some]
  by_cases hadd : s.stack_add = 0
  · have hadj := le_align_up_xalign 16 s.stack_adj
    have htemp := le_align_up_xalign 16 s.tempspace
    have hsum : align_up (xalign 16) s.stack_adj + align_up (xalign 16) s.tempspace = 0 := hadd
    have huses : use_regions (uses args .start) 0 = [] := use_regions_eq_nil h (by omega) 0
    have hcopies : copy_regions s.adj args 0 = [] :=
      copy_regions_eq_nil (hsized.2.symm.trans (by omega)) _
    have hnil : p.stores ++ split_stores p.splitofs infos = [] := by
      have hperm' : (p.stores ++ split_stores p.splitofs infos).Perm
        ([] ++ (use_regions (uses args .start) 0 ++ copy_regions s.adj args 0)) := hperm
      rw [huses, hcopies] at hperm'
      exact hperm'.eq_nil
    have hsplit : split_stores 0 infos = [] := by
      have hsplit := (List.append_eq_nil_iff.mp hnil).2
      rw [split_stores, List.map_eq_nil_iff] at hsplit
      rw [split_stores, hsplit]
      rfl
    refine ⟨[], ?_, by rw [huses, hcopies]; exact List.Perm.refl _⟩
    simp only [if_pos hadd, Option.map_some]
    rw [hadd]
    exact congrArg (fun rs => some (0, [] ++ rs)) hsplit
  · simp only [if_neg hadd, hp, Option.map_some]
    exact ⟨_, rfl, hperm⟩

end tcc.riscv64
