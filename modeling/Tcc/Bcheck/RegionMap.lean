import Mathlib.Data.List.Pairwise
import Mathlib.Data.List.Perm.Subperm
import Tcc.Bcheck.Regions

namespace bcheck

/-- A region of the map: its start and its size. -/
abbrev Key := BitVec 64 × BitVec 64

/-- The operations on the bounds tree. -/
inductive Op where
  | splay_insert (addr size : BitVec 64)
  | splay_delete (addr : BitVec 64)
  | splay (addr : BitVec 64)
  | splay_end (addr : BitVec 64)

def Op.exec (op : Op) (t : Tree) : Tree :=
  match op with
  | splay_insert addr size => bcheck.splay_insert addr size t
  | splay_delete addr => bcheck.splay_delete addr t
  | splay addr => bcheck.splay addr t
  | splay_end addr => bcheck.splay_end addr t

/-- What an operation means for the set of regions. -/
def Op.apply (op : Op) (regions : Set Key) : Set Key :=
  match op with
  | splay_insert addr size => insert (addr, size) regions
  | splay_delete addr => {k ∈ regions | k.1 ≠ addr}
  | _ => regions

/-- A region is only inserted apart from those present. -/
def Op.Allowed (op : Op) (regions : Set Key) : Prop :=
  match op with
  | splay_insert addr size => ∀ k ∈ regions, Disjoint (bytes addr size) (bytes k.1 k.2)
  | _ => True

/-- The condition on an operation: an inserted region is not empty, and ends in
    the address space. -/
def Op.Proper (op : Op) : Prop :=
  match op with
  | splay_insert addr size => bcheck.Proper addr size
  | _ => True

/-- The trees of the runs whose operations all meet `ok`, with the regions they
    should hold. -/
inductive Reachable (ok : Op → Prop) : Tree → Set Key → Prop where
  | start : Reachable ok .nil ∅
  | step {t : Tree} {regions : Set Key} {op : Op} (hreach : Reachable ok t regions)
      (hallowed : op.Allowed regions) (hok : ok op) : Reachable ok (op.exec t) (op.apply regions)

/-- The tree is a map of the regions: a search tree that holds just them, from
    which they can be found by an address in them, by their end, and removed. -/
structure IsMapOf (t : Tree) (regions : Set Key) : Prop where
  search : t.IsSearch fun x y => x.start < y.start
  mem : ∀ k, k ∈ regions ↔ ∃ r ∈ t.toList, (r.start, r.size) = k
  splay : ∀ addr, ∀ k ∈ regions, addr.toNat ∈ bytes k.1 k.2 →
    ∃ a x b, bcheck.splay addr t = .node a x b ∧ (x.start, x.size) = k
  splay_end : ∀ addr, ∀ k ∈ regions, addr.toNat = k.1.toNat + k.2.toNat →
    ∃ a x b, bcheck.splay_end addr t = .node a x b ∧ (x.start, x.size) = k
  splay_delete : ∀ addr, ∀ r ∈ (bcheck.splay_delete addr t).toList, r.start ≠ addr
  delete_between : ∀ start_fp end_fp, ∃ fuel t', bcheck.delete_between start_fp end_fp fuel t = some t' ∧
    ∀ r ∈ t'.toList, r.start < start_fp ∨ end_fp < r.start

/-- What holds between a tree and the regions in every run. -/
structure Represents (t : Tree) (regions : Set Key) : Prop where
  inv : Inv t
  mem : ∀ k, k ∈ regions ↔ ∃ r ∈ t.toList, (r.start, r.size) = k

theorem represents_of_toList_eq {t t' : Tree} {regions : Set Key} (h : Represents t regions)
    (heq : t'.toList = t.toList) : Represents t' regions :=
  ⟨h.inv.of_toList_eq heq, fun k => by rw [h.mem k, heq]⟩

theorem step_represents {op : Op} {t : Tree} {regions : Set Key} (h : Represents t regions)
    (hallowed : op.Allowed regions) (hok : op.Proper) :
    Represents (op.exec t) (op.apply regions) := by
  cases op with
  | splay_insert addr size =>
    have hdisjoint (r : Region) (hr : r ∈ t.toList) :
        Disjoint (bytes addr size) (bytes r.start r.size) :=
      hallowed (r.start, r.size) ((h.mem _).mpr ⟨r, hr, rfl⟩)
    obtain ⟨hinv, hmem⟩ := splay_insert_spec h.inv hok hdisjoint
    refine ⟨hinv, fun k => ?_⟩
    rw [Op.apply, Set.mem_insert_iff, h.mem k]
    constructor
    · rintro (rfl | ⟨r, hr, rfl⟩)
      · exact ⟨_, (hmem _).mpr (Or.inl rfl), rfl⟩
      · exact ⟨r, (hmem r).mpr (Or.inr hr), rfl⟩
    · rintro ⟨r, hr, rfl⟩
      obtain rfl | hr := (hmem r).mp hr
      · exact Or.inl rfl
      · exact Or.inr ⟨r, hr, rfl⟩
  | splay_delete addr =>
    obtain ⟨hinv, hmem⟩ := splay_delete_spec h.inv addr
    refine ⟨hinv, fun k => ?_⟩
    rw [Op.apply, Set.mem_sep_iff, h.mem k]
    constructor
    · rintro ⟨⟨r, hr, rfl⟩, hne⟩
      exact ⟨r, (hmem r).mpr ⟨hr, hne⟩, rfl⟩
    · rintro ⟨r, hr, rfl⟩
      obtain ⟨hr, hne⟩ := (hmem r).mp hr
      exact ⟨⟨r, hr, rfl⟩, hne⟩
  | splay addr => exact represents_of_toList_eq h (splay_toList h.inv.laid addr)
  | splay_end addr => exact represents_of_toList_eq h (splay_end_toList h.inv.laid addr)

theorem reachable_represents {t : Tree} {regions : Set Key}
    (hreach : Reachable Op.Proper t regions) : Represents t regions := by
  induction hreach with
  | start => exact ⟨inv_nil, fun k => by simp⟩
  | step _ hallowed hok ih => exact step_represents ih hallowed hok

theorem Inv.sorted {t : Tree} (h : Inv t) : t.toList.Pairwise fun x y => x.start < y.start := by
  refine h.apart.imp_of_mem fun {x y} hx _ hxy => ?_
  have := (h.proper x hx).1
  rw [Region.stop] at hxy
  rw [BitVec.lt_def]
  omega

theorem Inv.isSearch {t : Tree} (h : Inv t) : t.IsSearch fun x y => x.start < y.start :=
  (@splay_tree.Tree.isSearch_iff _ (fun x y : Region => x.start < y.start)
    (fun _ _ _ hxy hyz => BitVec.lt_trans hxy hyz) t).mpr h.sorted

theorem Inv.unique {t : Tree} (h : Inv t) {x y : Region} (hx : x ∈ t.toList) (hy : y ∈ t.toList)
    {n : Nat} (hnx : n ∈ bytes x.start x.size) (hny : n ∈ bytes y.start y.size) : x = y := by
  by_contra hne
  have happart : x.stop ≤ y.start.toNat ∨ y.stop ≤ x.start.toNat := by
    have hforall : t.toList.Pairwise fun x y : Region =>
        x.stop ≤ y.start.toNat ∨ y.stop ≤ x.start.toNat := List.Pairwise.imp Or.inl h.apart
    have hsymm : Std.Symm fun x y : Region =>
        x.stop ≤ y.start.toNat ∨ y.stop ≤ x.start.toNat := ⟨fun _ _ => Or.symm⟩
    exact hforall.forall hx hy hne
  rw [bytes, Set.mem_Ico] at hnx hny
  rw [Region.stop, Region.stop] at happart
  omega

theorem Inv.unique_stop {t : Tree} (h : Inv t) {x y : Region} (hx : x ∈ t.toList) (hy : y ∈ t.toList)
    (hstop : x.stop = y.stop) : x = y := by
  have hx0 := (h.proper x hx).1
  have hy0 := (h.proper y hy).1
  rw [Region.stop, Region.stop] at hstop
  refine h.unique hx hy (n := x.stop - 1) ?_ ?_ <;> rw [bytes, Set.mem_Ico, Region.stop] <;> omega

theorem find_between_none {start_fp end_fp : BitVec 64} {t : Tree}
    (hsearch : t.IsSearch fun x y => x.start < y.start)
    (hnone : find_between start_fp end_fp t = none) :
    ∀ r ∈ t.toList, r.start < start_fp ∨ end_fp < r.start := by
  induction t with
  | nil => exact fun r hr => absurd hr List.not_mem_nil
  | node a x b iha ihb =>
    obtain ⟨ha, hb, hsa, hsb⟩ := hsearch
    rw [find_between] at hnone
    intro r hr
    rw [splay_tree.Tree.toList_node, List.mem_append, List.mem_cons] at hr
    split at hnone
    · rename_i hlt
      obtain hr | rfl | hr := hr
      · exact Or.inl (BitVec.lt_trans (ha r hr) hlt)
      · exact Or.inl hlt
      · exact ihb hsb hnone r hr
    · split at hnone
      · rename_i hgt
        obtain hr | rfl | hr := hr
        · exact iha hsa hnone r hr
        · exact Or.inr hgt
        · exact Or.inr (BitVec.lt_trans hgt (hb r hr))
      · cases hnone

theorem find_between_mem {start_fp end_fp : BitVec 64} {t : Tree} {r : Region}
    (hsome : find_between start_fp end_fp t = some r) : r ∈ t.toList := by
  induction t with
  | nil => cases hsome
  | node a x b iha ihb =>
    rw [find_between] at hsome
    rw [splay_tree.Tree.toList_node, List.mem_append, List.mem_cons]
    split at hsome
    · exact Or.inr (Or.inr (ihb hsome))
    · split at hsome
      · exact Or.inl (iha hsome)
      · cases hsome
        exact Or.inr (Or.inl rfl)

theorem Inv.nodup {t : Tree} (h : Inv t) : t.toList.Nodup :=
  h.sorted.imp fun hlt heq => by
    subst heq
    exact BitVec.lt_irrefl _ hlt

/-- Every deletion removes a node, so the deletion loop ends. -/
theorem delete_between_ends {t : Tree} (h : Inv t) (start_fp end_fp : BitVec 64) :
    ∃ fuel t', delete_between start_fp end_fp fuel t = some t' ∧
      ∀ r ∈ t'.toList, r.start < start_fp ∨ end_fp < r.start := by
  induction hn : t.toList.length using Nat.strong_induction_on generalizing t with
  | _ n ih =>
    subst hn
    cases hfind : find_between start_fp end_fp t with
    | none =>
      refine ⟨1, t, ?_, find_between_none h.isSearch hfind⟩
      simp only [delete_between, hfind]
    | some r =>
      have hr := find_between_mem hfind
      obtain ⟨hinv, hmem⟩ := splay_delete_spec h r.start
      have hsub : (splay_delete r.start t).toList ⊆ t.toList.erase r := fun y hy =>
        (h.nodup.mem_erase_iff).mpr ⟨fun heq => ((hmem y).mp hy).2 (by rw [heq]), ((hmem y).mp hy).1⟩
      have hlen := (hinv.nodup.subperm hsub).length_le
      rw [List.length_erase_of_mem hr] at hlen
      have hpos := List.length_pos_of_mem hr
      obtain ⟨fuel, t', hrun, hend⟩ := ih _ (by omega) hinv rfl
      refine ⟨fuel + 1, t', ?_, hend⟩
      simp only [delete_between, hfind]
      exact hrun

/-- In every run that inserts no empty region the bounds tree is a map of the
    regions inserted and not deleted. -/
theorem reachable_isMapOf {t : Tree} {regions : Set Key}
    (hreach : Reachable Op.Proper t regions) : IsMapOf t regions := by
  obtain ⟨hinv, hmem⟩ := reachable_represents hreach
  have hkey (k : Key) (hk : k ∈ regions) :
      ∃ r ∈ t.toList, r.start = k.1 ∧ r.size = k.2 := by
    obtain ⟨r, hr, rfl⟩ := (hmem k).mp hk
    exact ⟨r, hr, rfl, rfl⟩
  refine ⟨hinv.isSearch, hmem, fun addr k hk haddr => ?_, fun addr k hk haddr => ?_,
    fun addr r hr => (((splay_delete_spec hinv addr).2 r).mp hr).2, delete_between_ends hinv⟩
  · obtain ⟨r, hr, hstart, hsize⟩ := hkey k hk
    rw [← hstart, ← hsize] at haddr
    obtain ⟨a, x, b, heq, hxt, hx⟩ := splay_finds hinv.laid hr haddr
    obtain rfl := hinv.unique hxt hr hx haddr
    exact ⟨a, x, b, heq, by rw [hstart, hsize]⟩
  · obtain ⟨r, hr, hstart, hsize⟩ := hkey k hk
    rw [← hstart, ← hsize] at haddr
    obtain ⟨a, x, b, heq, hxt, hx⟩ := splay_end_finds hinv.laid hr haddr
    obtain rfl := hinv.unique_stop hxt hr (hx.symm.trans haddr)
    exact ⟨a, x, b, heq, by rw [hstart, hsize]⟩

theorem two_regions_isMapOf :
    IsMapOf (splay_insert 200#64 16#64 (splay_insert 100#64 8#64 .nil))
      (insert (200#64, 16#64) (insert (100#64, 8#64) ∅)) := by
  have hfirst : Reachable Op.Proper (splay_insert 100#64 8#64 .nil) (insert (100#64, 8#64) ∅) :=
    @Reachable.step _ _ _ (.splay_insert 100#64 8#64) Reachable.start (fun k hk => absurd hk (Set.notMem_empty k))
      (by decide : Proper 100#64 8#64)
  refine reachable_isMapOf (@Reachable.step _ _ _ (.splay_insert 200#64 16#64) hfirst ?_
    (by decide : Proper 200#64 16#64))
  rintro k (rfl | hk)
  · exact (disjoint_iff (by decide) (by decide)).mpr (by decide)
  · exact absurd hk (Set.notMem_empty k)

/-- An empty region that is not at the end of the search stays in the tree when it
    is deleted. -/
theorem empty_region_stays :
    ∃ t regions, Reachable (fun _ => True) t regions ∧ ¬IsMapOf t regions := by
  refine ⟨splay_insert 100#64 0#64 (splay_insert 200#64 8#64 .nil),
    insert (100#64, 0#64) (insert (200#64, 8#64) ∅), ?_, fun hmap => ?_⟩
  · have hfirst : Reachable (fun _ => True) (splay_insert 200#64 8#64 .nil)
        (insert (200#64, 8#64) ∅) :=
      @Reachable.step _ _ _ (.splay_insert 200#64 8#64) Reachable.start
        (fun k hk => absurd hk (Set.notMem_empty k)) trivial
    refine @Reachable.step _ _ _ (.splay_insert 100#64 0#64) hfirst (fun k _ => ?_) trivial
    rw [bytes, BitVec.toNat_ofNat, BitVec.toNat_ofNat, Nat.zero_mod, Nat.add_zero, Set.Ico_self]
    exact Set.empty_disjoint _
  · exact hmap.splay_delete 100#64 ⟨100#64, 0#64, TCC_TYPE_NONE, false⟩ (by decide) rfl

end bcheck
