import Mathlib.Algebra.Group.Nat.Defs
import Mathlib.Order.CompletePartialOrder
import Mathlib.Order.Interval.Set.Disjoint
import Tcc.Tree.Splay

open splay_tree (Ordered Splayed splay_splayed)

namespace bcheck

/-- A node of the bounds tree: a region of memory. -/
structure Region where
  start : BitVec 64
  size : BitVec 64
  type : Nat
  is_invalid : Bool
  deriving DecidableEq, Repr

abbrev Tree := splay_tree.Tree Region

def TCC_TYPE_NONE : Nat := 0

/-- `compare`: on which side of a region an address is. -/
def compare (addr : BitVec 64) (t : Region) : Ordering :=
  if addr < t.start then .lt else if addr ≥ t.start + t.size then .gt else .eq

def compare_end (addr : BitVec 64) (t : Region) : Ordering :=
  if addr < t.start + t.size then .lt else if addr > t.start + t.size then .gt else .eq

def splay (addr : BitVec 64) (t : Tree) : Tree := splay_tree.splay (compare addr) t

def splay_end (addr : BitVec 64) (t : Tree) : Tree :=
  splay_tree.splay (compare_end addr) t

/-- `splay_insert`, when there is memory for the node. -/
def splay_insert (addr size : BitVec 64) (t : Tree) : Tree :=
  let new : Region := ⟨addr, size, TCC_TYPE_NONE, false⟩
  match splay addr t with
  | .nil => .node .nil new .nil
  | .node a x b =>
    match compare addr x with
    | .eq => .node a x b
    | .lt => .node a new (.node .nil x b)
    | .gt => .node (.node a x .nil) new b

def splay_delete (addr : BitVec 64) (t : Tree) : Tree :=
  match splay addr t with
  | .nil => .nil
  | .node a x b =>
    if addr = x.start then
      match a with
      | .nil => b
      | a =>
        match splay addr a with
        | .nil => .nil
        | .node a' x' _ => .node a' x' b
    else .node a x b

/-- The search of `__bound_long_jump` for a region that starts in the frames left. -/
def find_between (start_fp end_fp : BitVec 64) : Tree → Option Region
  | .nil => none
  | .node a x b =>
    if x.start < start_fp then find_between start_fp end_fp b
    else if x.start > end_fp then find_between start_fp end_fp a
    else some x

/-- The deletion loop of `__bound_long_jump`, for at most `fuel` rounds. -/
def delete_between (start_fp end_fp : BitVec 64) : Nat → Tree → Option Tree
  | 0, _ => none
  | fuel + 1, tree =>
    match find_between start_fp end_fp tree with
    | none => some tree
    | some t => delete_between start_fp end_fp fuel (splay_delete t.start tree)

/-- The first address after a region, as a number. -/
def Region.stop (r : Region) : Nat := r.start.toNat + r.size.toNat

/-- The bytes of a region. -/
def bytes (start size : BitVec 64) : Set Nat := Set.Ico start.toNat (start.toNat + size.toNat)

/-- The region has a byte, and ends in the address space. -/
def Proper (start size : BitVec 64) : Prop :=
  0 < size.toNat ∧ start.toNat + size.toNat < 2 ^ 64

instance (start size : BitVec 64) : Decidable (Proper start size) :=
  inferInstanceAs (Decidable (_ ∧ _))

/-- Every region lies before the next one. -/
def Apart (xs : List Region) : Prop := xs.Pairwise fun x y => x.stop ≤ y.start.toNat

/-- The regions of a tree end in the address space, in order. -/
structure Laid (t : Tree) : Prop where
  stop_lt : ∀ r ∈ t.toList, r.stop < 2 ^ 64
  apart : Apart t.toList

/-- The invariant of the bounds tree. -/
structure Inv (t : Tree) : Prop where
  proper : ∀ r ∈ t.toList, Proper r.start r.size
  apart : Apart t.toList

theorem Inv.laid {t : Tree} (h : Inv t) : Laid t :=
  ⟨fun r hr => (h.proper r hr).2, h.apart⟩

theorem stop_eq {r : Region} (h : r.stop < 2 ^ 64) : (r.start + r.size).toNat = r.stop := by
  rw [Region.stop] at h ⊢
  rw [BitVec.toNat_add, Nat.mod_eq_of_lt h]

theorem compare_eq_lt {addr : BitVec 64} {r : Region} :
    compare addr r = .lt ↔ addr.toNat < r.start.toNat := by
  unfold compare
  rw [← BitVec.lt_def]
  split
  · simp_all
  · split <;> simp_all

theorem compare_eq_gt {addr : BitVec 64} {r : Region} (h : r.stop < 2 ^ 64) :
    compare addr r = .gt ↔ r.stop ≤ addr.toNat := by
  unfold compare
  rw [← stop_eq h, ← BitVec.le_def]
  split
  · rename_i hlt
    have hstop := stop_eq h
    rw [BitVec.lt_def] at hlt
    simp only [reduceCtorEq, false_iff, BitVec.le_def, hstop, Region.stop]
    omega
  · split <;> simp_all

theorem compare_eq_eq {addr : BitVec 64} {r : Region} (h : r.stop < 2 ^ 64) :
    compare addr r = .eq ↔ addr.toNat ∈ bytes r.start r.size := by
  have hlt := @compare_eq_lt addr r
  have hgt := @compare_eq_gt addr r h
  rw [bytes, Set.mem_Ico]
  rw [Region.stop] at hgt
  cases hcmp : compare addr r <;> simp_all

theorem compare_end_eq_lt {addr : BitVec 64} {r : Region} (h : r.stop < 2 ^ 64) :
    compare_end addr r = .lt ↔ addr.toNat < r.stop := by
  unfold compare_end
  rw [← stop_eq h, ← BitVec.lt_def]
  split
  · simp_all
  · split <;> simp_all

theorem compare_end_eq_gt {addr : BitVec 64} {r : Region} (h : r.stop < 2 ^ 64) :
    compare_end addr r = .gt ↔ r.stop < addr.toNat := by
  unfold compare_end
  rw [← stop_eq h, ← BitVec.lt_def]
  split
  · rename_i hlt
    rw [BitVec.lt_def] at hlt
    simp only [reduceCtorEq, false_iff, BitVec.lt_def]
    omega
  · split <;> simp_all

theorem compare_end_eq_eq {addr : BitVec 64} {r : Region} (h : r.stop < 2 ^ 64) :
    compare_end addr r = .eq ↔ addr.toNat = r.stop := by
  have hlt := @compare_end_eq_lt addr r h
  have hgt := @compare_end_eq_gt addr r h
  cases hcmp : compare_end addr r <;> simp_all <;> omega

theorem Laid.ordered {t : Tree} (h : Laid t) (addr : BitVec 64) :
    Ordered (compare addr) t.toList := by
  refine h.apart.imp_of_mem fun {x y} hx hy hxy => ⟨fun hgt => ?_, fun hlt => ?_⟩
  · rw [compare_eq_gt (h.stop_lt y hy), Region.stop] at hgt
    rw [compare_eq_gt (h.stop_lt x hx)]
    omega
  · rw [compare_eq_lt] at hlt ⊢
    rw [Region.stop] at hxy
    omega

theorem Laid.ordered_end {t : Tree} (h : Laid t) (addr : BitVec 64) :
    Ordered (compare_end addr) t.toList := by
  refine h.apart.imp_of_mem fun {x y} hx hy hxy => ⟨fun hgt => ?_, fun hlt => ?_⟩
  · rw [compare_end_eq_gt (h.stop_lt y hy), Region.stop] at hgt
    rw [compare_end_eq_gt (h.stop_lt x hx)]
    omega
  · rw [compare_end_eq_lt (h.stop_lt x hx)] at hlt
    rw [compare_end_eq_lt (h.stop_lt y hy), Region.stop]
    omega

theorem Laid.of_toList_eq {t t' : Tree} (h : Laid t) (heq : t'.toList = t.toList) : Laid t' where
  stop_lt := heq ▸ h.stop_lt
  apart := heq ▸ h.apart

theorem Inv.of_toList_eq {t t' : Tree} (h : Inv t) (heq : t'.toList = t.toList) : Inv t' where
  proper := heq ▸ h.proper
  apart := heq ▸ h.apart

theorem splay_spec {t : Tree} (h : Laid t) (ht : t ≠ .nil) (addr : BitVec 64) :
    ∃ a x b, splay addr t = .node a x b ∧ Splayed (compare addr) t.toList a x b :=
  splay_splayed ht (h.ordered addr)

theorem splay_end_spec {t : Tree} (h : Laid t) (ht : t ≠ .nil) (addr : BitVec 64) :
    ∃ a x b, splay_end addr t = .node a x b ∧ Splayed (compare_end addr) t.toList a x b :=
  splay_splayed ht (h.ordered_end addr)

theorem splay_toList {t : Tree} (h : Laid t) (addr : BitVec 64) :
    (splay addr t).toList = t.toList := by
  by_cases ht : t = .nil
  · rw [ht]
    rfl
  · obtain ⟨a, x, b, heq, hsplayed⟩ := splay_spec h ht addr
    rw [heq, splay_tree.Tree.toList_node, hsplayed.toList]

theorem splay_end_toList {t : Tree} (h : Laid t) (addr : BitVec 64) :
    (splay_end addr t).toList = t.toList := by
  by_cases ht : t = .nil
  · rw [ht]
    rfl
  · obtain ⟨a, x, b, heq, hsplayed⟩ := splay_end_spec h ht addr
    rw [heq, splay_tree.Tree.toList_node, hsplayed.toList]

theorem ne_nil_of_mem {t : Tree} {r : Region} (hr : r ∈ t.toList) : t ≠ .nil := by
  rintro rfl
  exact absurd hr List.not_mem_nil

/-- The region that contains an address is brought to the root. -/
theorem splay_finds {t : Tree} (h : Laid t) {r : Region} (hr : r ∈ t.toList) {addr : BitVec 64}
    (haddr : addr.toNat ∈ bytes r.start r.size) :
    ∃ a x b, splay addr t = .node a x b ∧ x ∈ t.toList ∧ addr.toNat ∈ bytes x.start x.size := by
  obtain ⟨a, x, b, heq, hsplayed⟩ := splay_spec h (ne_nil_of_mem hr) addr
  have hx : x ∈ t.toList := by
    rw [← hsplayed.toList]
    simp
  refine ⟨a, x, b, heq, hx, ?_⟩
  rw [← compare_eq_eq (h.stop_lt x hx)]
  exact hsplayed.root_eq (h.ordered addr) hr ((compare_eq_eq (h.stop_lt r hr)).mpr haddr)

theorem splay_end_finds {t : Tree} (h : Laid t) {r : Region} (hr : r ∈ t.toList)
    {addr : BitVec 64} (haddr : addr.toNat = r.stop) :
    ∃ a x b, splay_end addr t = .node a x b ∧ x ∈ t.toList ∧ addr.toNat = x.stop := by
  obtain ⟨a, x, b, heq, hsplayed⟩ := splay_end_spec h (ne_nil_of_mem hr) addr
  have hx : x ∈ t.toList := by
    rw [← hsplayed.toList]
    simp
  refine ⟨a, x, b, heq, hx, ?_⟩
  rw [← compare_end_eq_eq (h.stop_lt x hx)]
  exact hsplayed.root_eq (h.ordered_end addr) hr
    ((compare_end_eq_eq (h.stop_lt r hr)).mpr haddr)

theorem disjoint_iff {a s b t : BitVec 64} (hs : Proper a s) (ht : Proper b t) :
    Disjoint (bytes a s) (bytes b t) ↔
      a.toNat + s.toNat ≤ b.toNat ∨ b.toNat + t.toNat ≤ a.toNat := by
  rw [bytes, bytes, Set.Ico_disjoint_Ico]
  have := hs.1
  have := ht.1
  omega

theorem inv_nil : Inv .nil where
  proper _ h := absurd h List.not_mem_nil
  apart := List.Pairwise.nil

/-- A region put between two parts of a tree that lie on its two sides. -/
theorem Inv.between {t : Tree} (h : Inv t) {xs ys : List Region} (heq : xs ++ ys = t.toList)
    {r : Region} (hr : Proper r.start r.size) (hxs : ∀ x ∈ xs, x.stop ≤ r.start.toNat)
    (hys : ∀ y ∈ ys, r.stop ≤ y.start.toNat) {t' : Tree} (ht' : t'.toList = xs ++ r :: ys) :
    Inv t' ∧ ∀ z, z ∈ t'.toList ↔ z = r ∨ z ∈ t.toList := by
  have hproper := h.proper
  have hapart := h.apart
  rw [← heq] at hproper hapart
  rw [Apart, List.pairwise_append] at hapart
  refine ⟨⟨fun z hz => ?_, ?_⟩, fun z => ?_⟩
  · rw [ht', List.mem_append, List.mem_cons] at hz
    obtain hz | rfl | hz := hz
    · exact hproper z (List.mem_append_left ys hz)
    · exact hr
    · exact hproper z (List.mem_append_right xs hz)
  · rw [ht', Apart, List.pairwise_append, List.pairwise_cons]
    refine ⟨hapart.1, ⟨hys, hapart.2.1⟩, fun x hx y hy => ?_⟩
    obtain rfl | hy := List.mem_cons.mp hy
    · exact hxs x hx
    · exact hapart.2.2 x hx y hy
  · rw [ht', ← heq, List.mem_append, List.mem_cons, List.mem_append]
    tauto

theorem splay_insert_spec {t : Tree} (h : Inv t) {addr size : BitVec 64} (hproper : Proper addr size)
    (hdisjoint : ∀ r ∈ t.toList, Disjoint (bytes addr size) (bytes r.start r.size)) :
    Inv (splay_insert addr size t) ∧ ∀ r, r ∈ (splay_insert addr size t).toList ↔
      r = ⟨addr, size, TCC_TYPE_NONE, false⟩ ∨ r ∈ t.toList := by
  by_cases ht : t = .nil
  · subst ht
    exact @Inv.between _ inv_nil [] [] rfl ⟨addr, size, TCC_TYPE_NONE, false⟩ hproper
      (fun _ hx => absurd hx List.not_mem_nil) (fun _ hy => absurd hy List.not_mem_nil) _ rfl
  · obtain ⟨a, x, b, heq, hsplayed⟩ := splay_spec h.laid ht addr
    have hmem (y : Region) (hy : y ∈ a.toList ++ x :: b.toList) : y ∈ t.toList := hsplayed.toList ▸ hy
    have hx : x ∈ t.toList := hmem x (by simp)
    have hxproper := h.proper x hx
    have hapart := h.apart
    rw [← hsplayed.toList, Apart, List.pairwise_append, List.pairwise_cons] at hapart
    have hxdisjoint := (disjoint_iff hproper hxproper).mp (hdisjoint x hx)
    have hsize := hproper.1
    have hxsize := hxproper.1
    simp only [splay_insert, heq]
    cases hcmp : compare addr x with
    | eq =>
      rw [compare_eq_eq hxproper.2, bytes, Set.mem_Ico] at hcmp
      omega
    | lt =>
      have hlt := compare_eq_lt.mp hcmp
      refine @Inv.between _ h a.toList (x :: b.toList) hsplayed.toList
        ⟨addr, size, TCC_TYPE_NONE, false⟩ hproper (fun y hy => ?_) (fun y hy => ?_) _ rfl
      · exact (compare_eq_gt (h.proper y (hmem y (List.mem_append_left _ hy))).2).mp
          (hsplayed.left hcmp y hy)
      · have hstop : addr.toNat + size.toNat ≤ x.start.toNat := by omega
        obtain rfl | hy := List.mem_cons.mp hy
        · exact hstop
        · have hxy := hapart.2.1.1 y hy
          rw [Region.stop] at hxy
          exact hstop.trans (by omega)
    | gt =>
      have hgt := (compare_eq_gt hxproper.2).mp hcmp
      refine @Inv.between _ h (a.toList ++ [x]) b.toList (by simpa using hsplayed.toList)
        ⟨addr, size, TCC_TYPE_NONE, false⟩ hproper (fun y hy => ?_) (fun y hy => ?_) _ (by simp)
      · obtain hy | hy := List.mem_append.mp hy
        · have hyx := hapart.2.2 y hy x List.mem_cons_self
          rw [Region.stop] at hgt
          change y.stop ≤ addr.toNat
          omega
        · obtain rfl := List.mem_singleton.mp hy
          exact hgt
      · have hy' := hmem y (by simp [hy])
        have hlt := compare_eq_lt.mp (hsplayed.right hcmp y hy)
        have hydisjoint := (disjoint_iff hproper (h.proper y hy')).mp (hdisjoint y hy')
        have := (h.proper y hy').1
        rw [Region.stop]
        simp only
        omega

theorem splay_delete_spec {t : Tree} (h : Inv t) (addr : BitVec 64) :
    Inv (splay_delete addr t) ∧
      ∀ r, r ∈ (splay_delete addr t).toList ↔ r ∈ t.toList ∧ r.start ≠ addr := by
  by_cases ht : t = .nil
  · subst ht
    exact ⟨inv_nil, by simp [splay_delete, splay, splay_tree.splay, splay_tree.descend]⟩
  · obtain ⟨a, x, b, heq, hsplayed⟩ := splay_spec h.laid ht addr
    have hmem (y : Region) : y ∈ t.toList ↔ y ∈ a.toList ∨ y = x ∨ y ∈ b.toList := by
      rw [← hsplayed.toList]
      simp
    have hx : x ∈ t.toList := (hmem x).mpr (Or.inr (Or.inl rfl))
    have hproper := h.proper
    have hapart := h.apart
    rw [← hsplayed.toList, Apart, List.pairwise_append, List.pairwise_cons] at hapart
    simp only [splay_delete, heq]
    by_cases hstart : addr = x.start
    · rw [if_pos hstart]
      have hxsize := (hproper x hx).1
      have hleft (y : Region) (hy : y ∈ a.toList) : y.start ≠ addr ∧ y.stop ≤ addr.toNat := by
        have hyx := hapart.2.2 y hy x List.mem_cons_self
        have hysize := (hproper y ((hmem y).mpr (Or.inl hy))).1
        rw [hstart]
        refine ⟨fun hne => ?_, hyx⟩
        rw [Region.stop, hne] at hyx
        omega
      have hright (y : Region) (hy : y ∈ b.toList) : y.start ≠ addr := by
        have hxy := hapart.2.1.1 y hy
        rw [hstart]
        intro hne
        rw [Region.stop, hne] at hxy
        omega
      have hlist {t' : Tree} (ht' : t'.toList = a.toList ++ b.toList) :
          Inv t' ∧ ∀ r, r ∈ t'.toList ↔ r ∈ t.toList ∧ r.start ≠ addr := by
        refine ⟨⟨fun r hr => ?_, ?_⟩, fun r => ?_⟩
        · rw [ht', List.mem_append] at hr
          exact hproper r ((hmem r).mpr (hr.imp_right Or.inr))
        · rw [ht', Apart, List.pairwise_append]
          exact ⟨hapart.1, hapart.2.1.2, fun y hy z hz =>
            hapart.2.2 y hy z (List.mem_cons_of_mem x hz)⟩
        · rw [ht', List.mem_append, hmem]
          constructor
          · rintro (hr | hr)
            · exact ⟨Or.inl hr, (hleft r hr).1⟩
            · exact ⟨Or.inr (Or.inr hr), hright r hr⟩
          · rintro ⟨hr | rfl | hr, hne⟩
            · exact Or.inl hr
            · exact absurd hstart.symm hne
            · exact Or.inr hr
      split
      · exact hlist rfl
      · rename_i hne
        have hinva : Inv a :=
          ⟨fun y hy => hproper y ((hmem y).mpr (Or.inl hy)), hapart.1⟩
        obtain ⟨a', x', b', heq', hsplayed'⟩ := splay_spec hinva.laid hne addr
        have hnil : b' = .nil := hsplayed'.right_nil fun y hy =>
          (compare_eq_gt (hinva.proper y hy).2).mpr (hleft y hy).2
        subst hnil
        rw [heq']
        refine hlist ?_
        simp only [splay_tree.Tree.toList_node, ← hsplayed'.toList, splay_tree.Tree.toList_nil,
          List.append_assoc, List.cons_append, List.nil_append]
    · rw [if_neg hstart]
      refine ⟨h.of_toList_eq hsplayed.toList, fun r => ?_⟩
      rw [splay_tree.Tree.toList_node, hsplayed.toList]
      refine ⟨fun hr => ⟨hr, fun hne => ?_⟩, And.left⟩
      have hbytes : addr.toNat ∈ bytes r.start r.size := by
        rw [bytes, Set.mem_Ico, hne]
        have := (hproper r hr).1
        omega
      have hroot := hsplayed.root_eq (h.laid.ordered addr) hr
        ((compare_eq_eq (hproper r hr).2).mpr hbytes)
      rw [compare_eq_eq (hproper x hx).2, bytes, Set.mem_Ico] at hroot
      obtain hra | rfl | hrb := (hmem r).mp hr
      · have hrx := hapart.2.2 r hra x List.mem_cons_self
        have := (hproper r hr).1
        rw [Region.stop, hne] at hrx
        omega
      · exact hstart hne.symm
      · have hxr := hapart.2.1.1 r hrb
        rw [Region.stop, hne] at hxr
        omega

end bcheck
