import Mathlib.Algebra.Order.Group.Nat
import Mathlib.Data.List.Pairwise
import Tcc.Bcheck.Regions

namespace bcheck

/-- The settings the checks read. -/
structure Settings where
  no_checking : Bool
  print_warn_ptr_add : Bool
  never_fatal : Int

def INVALID_POINTER : BitVec 64 := -2#64

/-- What a check found. -/
inductive Verdict where
  | not_checked
  | inside
  | outside
  | not_found
  deriving DecidableEq, Repr

/-- The end of a check: the pointer returned, what was found, whether a message
    was printed, and the tree left. -/
structure Answer where
  ret : BitVec 64
  verdict : Verdict
  warning : Bool
  tree : Tree

/-- The search for the region of a pointer: at the root, by the regions, and by
    their ends. -/
def locate (p : BitVec 64) : Tree → Tree
  | .nil => .nil
  | .node a x b =>
    if p - x.start < x.size then .node a x b
    else
      match splay p (.node a x b) with
      | .nil => .nil
      | .node a' x' b' =>
        if p - x'.start < x'.size then .node a' x' b' else splay_end p (.node a' x' b')

/-- `__bound_ptr_add`. -/
def bound_ptr_add (settings : Settings) (tree : Tree) (p offset : BitVec 64) : Answer :=
  if settings.no_checking then ⟨p + offset, .not_checked, false, tree⟩
  else
    match locate p tree with
    | .nil => ⟨p + offset, .not_found, false, .nil⟩
    | .node a x b =>
      let addr := p - x.start
      if addr ≤ x.size then
        if x.is_invalid ∨ addr + offset > x.size then
          ⟨if settings.never_fatal ≤ 0 then INVALID_POINTER else p + offset, .outside,
            settings.print_warn_ptr_add, .node a x b⟩
        else ⟨p + offset, .inside, false, .node a x b⟩
      else ⟨p + offset, .not_found, p ≠ 0, .node a x b⟩

/-- `BOUND_PTR_INDIR` for one access size. -/
def bound_ptr_indir (dsize : BitVec 64) (settings : Settings) (tree : Tree)
    (p offset : BitVec 64) : Answer :=
  if settings.no_checking then ⟨p + offset, .not_checked, false, tree⟩
  else
    match locate p tree with
    | .nil => ⟨p + offset, .not_found, false, .nil⟩
    | .node a x b =>
      let addr := p - x.start
      if addr ≤ x.size then
        if x.is_invalid ∨ addr + offset + dsize > x.size then
          ⟨if settings.never_fatal ≤ 0 then INVALID_POINTER else p + offset, .outside, true,
            .node a x b⟩
        else ⟨p + offset, .inside, false, .node a x b⟩
      else ⟨p + offset, .not_found, true, .node a x b⟩

def bound_ptr_indir1 := bound_ptr_indir 1#64
def bound_ptr_indir2 := bound_ptr_indir 2#64
def bound_ptr_indir4 := bound_ptr_indir 4#64
def bound_ptr_indir8 := bound_ptr_indir 8#64
def bound_ptr_indir12 := bound_ptr_indir 12#64
def bound_ptr_indir16 := bound_ptr_indir 16#64

/-- The pointers into a region: to its bytes and one past its end. -/
def Region.pointers (r : Region) : Set Nat := Set.Icc r.start.toNat r.stop

instance (n : Nat) (r : Region) : Decidable (n ∈ r.pointers) :=
  inferInstanceAs (Decidable (_ ∧ _))

/-- The bounds tree holds regions that end in the address space and are pairwise
    disjoint and not adjacent. -/
structure Live (t : Tree) : Prop where
  search : t.IsSearch fun x y => x.start < y.start
  stop_lt : ∀ r ∈ t.toList, r.stop < 2 ^ 64
  disjoint : t.toList.Pairwise fun x y => Disjoint x.pointers y.pointers

/-- The checks of a pointer are right: they report an error just when the region
    is invalid or is left. -/
structure Exact (settings : Settings) (t : Tree) (p offset dsize : BitVec 64) : Prop where
  indir : ∀ r ∈ t.toList, p.toNat ∈ r.pointers →
    ((bound_ptr_indir dsize settings t p offset).verdict = .outside ↔
      r.is_invalid ∨ ¬ bytes (p + offset) dsize ⊆ bytes r.start r.size)
  add : ∀ r ∈ t.toList, p.toNat ∈ r.pointers →
    ((bound_ptr_add settings t p offset).verdict = .outside ↔
      r.is_invalid ∨ (p + offset).toNat ∉ r.pointers)
  not_found : (∀ r ∈ t.toList, p.toNat ∉ r.pointers) →
    ((bound_ptr_indir dsize settings t p offset).verdict = .not_found ∧
      (bound_ptr_indir dsize settings t p offset).ret = p + offset) ∧
    (bound_ptr_add settings t p offset).verdict = .not_found ∧
      (bound_ptr_add settings t p offset).ret = p + offset

/-- An access of `dsize` bytes that starts at most `dsize` bytes below a region,
    and does not end after it. -/
def StartsBelow (r : Region) (addr dsize : BitVec 64) : Prop :=
  let below := r.start - addr
  0 < below ∧ below ≤ dsize ∧ dsize - below ≤ r.size

instance (r : Region) (addr dsize : BitVec 64) : Decidable (StartsBelow r addr dsize) :=
  inferInstanceAs (Decidable (_ ∧ _ ∧ _))

theorem Live.sorted {t : Tree} (h : Live t) :
    t.toList.Pairwise fun x y => x.stop < y.start.toNat := by
  have hsorted := (@splay_tree.Tree.isSearch_iff _ (fun x y : Region => x.start < y.start)
    (fun _ _ _ hxy hyz => BitVec.lt_trans hxy hyz) t).mp h.search
  refine (hsorted.and h.disjoint).imp fun {x y} hxy => ?_
  obtain ⟨hlt, hdisjoint⟩ := hxy
  rw [BitVec.lt_def] at hlt
  by_contra hle
  have hx : y.start.toNat ∈ x.pointers := Set.mem_Icc.mpr ⟨hlt.le, not_lt.mp hle⟩
  have hy : y.start.toNat ∈ y.pointers := Set.mem_Icc.mpr ⟨le_rfl, Nat.le_add_right _ _⟩
  exact Set.disjoint_left.mp hdisjoint hx hy

theorem Live.laid {t : Tree} (h : Live t) : Laid t :=
  ⟨h.stop_lt, h.sorted.imp Nat.le_of_lt⟩

/-- A pointer points into one region at most. -/
theorem Live.unique {t : Tree} (h : Live t) {x y : Region} (hx : x ∈ t.toList) (hy : y ∈ t.toList)
    {n : Nat} (hnx : n ∈ x.pointers) (hny : n ∈ y.pointers) : x = y := by
  by_contra hne
  have hsymm : Std.Symm fun x y : Region => Disjoint x.pointers y.pointers :=
    ⟨fun _ _ hxy => hxy.symm⟩
  exact Set.disjoint_left.mp (h.disjoint.forall hx hy hne) hnx hny

theorem sub_lt_size {p : BitVec 64} {r : Region} (h : r.stop < 2 ^ 64) :
    p - r.start < r.size ↔ p.toNat ∈ bytes r.start r.size := by
  rw [bytes, Set.mem_Ico]
  rw [Region.stop] at h
  bv_omega

theorem sub_le_size {p : BitVec 64} {r : Region} (h : r.stop < 2 ^ 64) :
    p - r.start ≤ r.size ↔ p.toNat ∈ r.pointers := by
  rw [Region.pointers, Set.mem_Icc, Region.stop]
  rw [Region.stop] at h
  bv_omega

theorem pointers_of_bytes {n : Nat} {r : Region} (h : n ∈ bytes r.start r.size) :
    n ∈ r.pointers := by
  rw [bytes, Set.mem_Ico] at h
  exact Set.mem_Icc.mpr ⟨h.1, h.2.le⟩

theorem locate_toList {t : Tree} (h : Live t) (p : BitVec 64) :
    (locate p t).toList = t.toList := by
  cases t with
  | nil => rfl
  | node a x b =>
    obtain ⟨a', x', b', heq, hsplayed⟩ := splay_spec h.laid (by simp) p
    have hlaid : Laid (.node a' x' b') := h.laid.of_toList_eq hsplayed.toList
    simp only [locate, heq]
    split
    · rfl
    · split
      · exact hsplayed.toList
      · rw [splay_end_toList hlaid, splay_tree.Tree.toList_node, hsplayed.toList]

/-- The region a pointer points into is found. -/
theorem locate_finds {t : Tree} (h : Live t) {p : BitVec 64} {r : Region} (hr : r ∈ t.toList)
    (hp : p.toNat ∈ r.pointers) : ∃ a b, locate p t = .node a r b := by
  cases t with
  | nil => exact absurd hr List.not_mem_nil
  | node a x b =>
    obtain ⟨a', x', b', heq, hsplayed⟩ := splay_spec h.laid (by simp) p
    have hx : x ∈ (splay_tree.Tree.node a x b).toList := by simp
    have hx' : x' ∈ (splay_tree.Tree.node a x b).toList := by
      rw [← hsplayed.toList]
      simp
    simp only [locate, heq]
    by_cases hroot : p - x.start < x.size
    · rw [if_pos hroot]
      have hin := pointers_of_bytes ((sub_lt_size (h.stop_lt x hx)).mp hroot)
      obtain rfl := h.unique hr hx hp hin
      exact ⟨a, b, rfl⟩
    · rw [if_neg hroot]
      by_cases hroot' : p - x'.start < x'.size
      · rw [if_pos hroot']
        have hin := pointers_of_bytes ((sub_lt_size (h.stop_lt x' hx')).mp hroot')
        obtain rfl := h.unique hr hx' hp hin
        exact ⟨a', b', rfl⟩
      · rw [if_neg hroot']
        have hlaid : Laid (.node a' x' b') := h.laid.of_toList_eq hsplayed.toList
        have hr' : r ∈ (splay_tree.Tree.node a' x' b').toList := by
          rw [splay_tree.Tree.toList_node, hsplayed.toList]
          exact hr
        have hstop : p.toNat = r.stop := by
          by_contra hne
          obtain ⟨hlow, hhigh⟩ := Set.mem_Icc.mp hp
          have hbytes : p.toNat ∈ bytes r.start r.size :=
            Set.mem_Ico.mpr ⟨hlow, lt_of_le_of_ne hhigh hne⟩
          obtain ⟨a'', x'', b'', heq'', hx'', hin⟩ := splay_finds h.laid hr hbytes
          rw [heq] at heq''
          cases heq''
          exact hroot' ((sub_lt_size (h.stop_lt x' hx')).mpr hin)
        obtain ⟨a'', x'', b'', heq'', hx'', hend⟩ := splay_end_finds hlaid hr' hstop
        rw [splay_tree.Tree.toList_node, hsplayed.toList] at hx''
        have hin : p.toNat ∈ x''.pointers :=
          Set.mem_Icc.mpr ⟨by rw [hend]; exact Nat.le_add_right _ _, hend.le⟩
        obtain rfl := h.unique hr hx'' hp hin
        exact ⟨a'', b'', heq''⟩

theorem add_outside_iff {r : Region} (h : r.stop < 2 ^ 64) (p offset : BitVec 64) :
    p - r.start + offset > r.size ↔ (p + offset).toNat ∉ r.pointers := by
  rw [← sub_le_size h, show p + offset - r.start = p - r.start + offset by bv_omega]
  exact BitVec.not_le.symm

theorem subset_iff {r : Region} {addr dsize : BitVec 64} (hdsize : 0 < dsize) :
    bytes addr dsize ⊆ bytes r.start r.size ↔
      r.start.toNat ≤ addr.toNat ∧ addr.toNat + dsize.toNat ≤ r.stop := by
  have hlt : addr.toNat < addr.toNat + dsize.toNat := by
    rw [BitVec.lt_def] at hdsize
    simpa using hdsize
  rw [bytes, bytes, Set.Ico_subset_Ico_iff hlt, Region.stop]

/-- The wrapped sum of the check misses just the accesses that start below the
    region and do not end after it. -/
theorem indir_outside_iff {r : Region} (h : r.stop < 2 ^ 64) {p offset dsize : BitVec 64}
    (hdsize : 0 < dsize) : p - r.start + offset + dsize > r.size ↔
      ¬ bytes (p + offset) dsize ⊆ bytes r.start r.size ∧ ¬ StartsBelow r (p + offset) dsize := by
  rw [subset_iff hdsize, show p - r.start + offset = p + offset - r.start by bv_omega]
  generalize p + offset = addr
  simp only [StartsBelow, Region.stop] at h ⊢
  bv_omega

theorem not_subset_of_startsBelow {r : Region} {addr dsize : BitVec 64}
    (hdsize : 0 < dsize) (hbelow : StartsBelow r addr dsize) :
    ¬ bytes addr dsize ⊆ bytes r.start r.size := by
  rw [subset_iff hdsize]
  simp only [StartsBelow, Region.stop] at hbelow ⊢
  bv_omega

section

variable {settings : Settings} {t : Tree} {p : BitVec 64}

/-- A check changes the pointer only when it reports an error that is fatal. -/
theorem bound_ptr_ret (offset dsize : BitVec 64) :
    (bound_ptr_indir dsize settings t p offset).ret =
      (if (bound_ptr_indir dsize settings t p offset).verdict = .outside ∧ settings.never_fatal ≤ 0
        then INVALID_POINTER else p + offset) ∧
    (bound_ptr_add settings t p offset).ret =
      (if (bound_ptr_add settings t p offset).verdict = .outside ∧ settings.never_fatal ≤ 0
        then INVALID_POINTER else p + offset) := by
  constructor
  · unfold bound_ptr_indir
    grind
  · unfold bound_ptr_add
    grind

theorem bound_ptr_indir_found (hchecking : settings.no_checking = false) (h : Live t)
    {r : Region} (hr : r ∈ t.toList) (hp : p.toNat ∈ r.pointers) (offset dsize : BitVec 64) :
    (bound_ptr_indir dsize settings t p offset).verdict = .outside ↔
      r.is_invalid ∨ p - r.start + offset + dsize > r.size := by
  obtain ⟨a, b, heq⟩ := locate_finds h hr hp
  have hle := (sub_le_size (h.stop_lt r hr)).mpr hp
  simp only [bound_ptr_indir, hchecking, heq, hle, if_true, Bool.false_eq_true, if_false]
  split <;> simp_all

theorem bound_ptr_add_found (hchecking : settings.no_checking = false) (h : Live t)
    {r : Region} (hr : r ∈ t.toList) (hp : p.toNat ∈ r.pointers) (offset : BitVec 64) :
    (bound_ptr_add settings t p offset).verdict = .outside ↔
      r.is_invalid ∨ p - r.start + offset > r.size := by
  obtain ⟨a, b, heq⟩ := locate_finds h hr hp
  have hle := (sub_le_size (h.stop_lt r hr)).mpr hp
  simp only [bound_ptr_add, hchecking, heq, hle, if_true, Bool.false_eq_true, if_false]
  split <;> simp_all

/-- Outside all regions both checks let a pointer pass. -/
theorem bound_ptr_not_found (hchecking : settings.no_checking = false) (h : Live t)
    (hp : ∀ r ∈ t.toList, p.toNat ∉ r.pointers) (offset dsize : BitVec 64) :
    ((bound_ptr_indir dsize settings t p offset).verdict = .not_found ∧
      (bound_ptr_indir dsize settings t p offset).ret = p + offset) ∧
    (bound_ptr_add settings t p offset).verdict = .not_found ∧
      (bound_ptr_add settings t p offset).ret = p + offset := by
  have hlist := locate_toList h p
  cases heq : locate p t with
  | nil => simp [bound_ptr_indir, bound_ptr_add, hchecking, heq]
  | node a x b =>
    have hx : x ∈ t.toList := by
      rw [← hlist, heq]
      simp
    have hle : ¬ p - x.start ≤ x.size := by
      rw [sub_le_size (h.stop_lt x hx)]
      exact hp x hx
    simp [bound_ptr_indir, bound_ptr_add, hchecking, heq, hle]

end

def checking : Settings := ⟨false, false, 0⟩

/-- One region of eight bytes. -/
def eight_bytes : Tree := splay_insert 100#64 8#64 .nil

theorem eight_bytes_live : Live eight_bytes where
  search := ⟨fun _ hx => absurd hx List.not_mem_nil, fun _ hx => absurd hx List.not_mem_nil,
    trivial, trivial⟩
  stop_lt := by decide
  disjoint := List.pairwise_singleton _ _

end bcheck
