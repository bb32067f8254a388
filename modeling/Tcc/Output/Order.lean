import Tcc.Machine.Bits
import Tcc.Output.Segments

/-! What the order of the sections is: those in memory first, in segments. -/

namespace tcc.output

open machine tcc.obj

instance : Std.Total fun a b : Classed => b.cls ≤ a.cls := ⟨fun a b => Nat.le_total b.cls a.cls⟩

instance : IsTrans Classed fun a b => b.cls ≤ a.cls := ⟨fun _ _ _ hab hbc => Nat.le_trans hbc hab⟩

theorem place_class_perm (sorted : List Classed) (x : Classed) : (place_class sorted x).Perm (x :: sorted) :=
  (List.reverse_perm _).trans
    ((List.perm_orderedInsert _ x _).trans ((List.reverse_perm sorted).cons x))

theorem place_class_sorted {sorted : List Classed} (hsorted : sorted.Pairwise fun a b => a.cls ≤ b.cls)
    (x : Classed) : (place_class sorted x).Pairwise fun a b => a.cls ≤ b.cls :=
  List.pairwise_reverse.mpr (List.Pairwise.orderedInsert x _ (List.pairwise_reverse.mpr hsorted))

theorem foldl_place_class (xs sorted : List Classed) (hsorted : sorted.Pairwise fun a b => a.cls ≤ b.cls) :
    (xs.foldl place_class sorted).Perm (sorted ++ xs) ∧
      (xs.foldl place_class sorted).Pairwise fun a b => a.cls ≤ b.cls := by
  induction xs generalizing sorted with
  | nil => exact ⟨by rw [List.append_nil]; exact .refl _, hsorted⟩
  | cons x xs ih =>
    obtain ⟨hperm, hpairwise⟩ := ih _ (place_class_sorted hsorted x)
    refine ⟨hperm.trans ?_, hpairwise⟩
    exact ((place_class_perm sorted x).append_right xs).trans List.perm_middle.symm

theorem ite_lt_of_lt {p : Prop} [Decidable p] {a b n : Nat} (ha : a < n) (hb : b < n) :
    (if p then a else b) < n := by
  split
  · exact ha
  · exact hb

theorem class_of_type_lt (sp : Special) (nb_sections i : Nat) (s : Section) :
    class_of_type sp nb_sections i s < 0x100 := by
  unfold class_of_type
  repeat' refine ite_lt_of_lt ?_ ?_
  all_goals decide

/-- The sections in memory are those of the lower classes. -/
theorem section_class_lt_iff (sp : Special) (nb_sections i : Nat) (s : Section) :
    section_class sp nb_sections i s < 0x700 ↔ s.alloc := by
  have htype := class_of_type_lt sp nb_sections i s
  unfold section_class class_of_flags
  by_cases halloc : s.alloc
  · rw [if_pos halloc]
    refine iff_of_true ?_ halloc
    split <;> split <;> omega
  · rw [if_neg halloc]
    refine iff_of_false ?_ halloc
    split <;> omega

theorem segment_flags_ne_zero {x : Classed} (halloc : x.sec.alloc) : segment_flags x ≠ 0#32 := by
  intro hzero
  refine halloc ?_
  have hand : segment_flags x &&& SHF_ALLOC = x.sec.sh_flags &&& SHF_ALLOC := by
    unfold segment_flags
    split
    · rw [BitVec.and_or_distrib_right, BitVec.and_assoc]
      exact (congrArg₂ _ rfl (by decide)).trans (BitVec.or_zero)
    · rw [BitVec.and_assoc]
      rfl
  rw [← hand, hzero]
  rfl

theorem segment_flags_and_header (x : Classed) : segment_flags x &&& F_HEADER = 0#32 := by
  have hmask : x.sec.sh_flags &&& SEGMENT_FLAGS &&& F_HEADER = 0#32 := by
    rw [BitVec.and_assoc]
    exact (congrArg₂ _ rfl (by decide)).trans BitVec.and_zero
  unfold segment_flags
  split
  · rw [BitVec.and_or_distrib_right, hmask]
    rfl
  · exact hmask

/-- The flags of a section without the mark of a header. -/
def Entry.kind (e : Entry) : BitVec 32 := e.f &&& ~~~F_HEADER

/-- A section that has no mark has the flags of the one before. -/
def Marked : BitVec 32 → List Entry → Prop
  | _, [] => True
  | f0, e :: rest => (¬e.header → e.kind = f0) ∧ Marked e.kind rest

theorem and_not_eq_self {x m : BitVec 32} (h : x &&& m = 0#32) : x &&& ~~~m = x :=
  and_eq_self_of_and_not_eq_zero (by rw [BitVec.not_not, h])

theorem header_mark (x : Classed) :
    (⟨x.num, x.sec, segment_flags x ||| F_HEADER⟩ : Entry).header ∧
      (⟨x.num, x.sec, segment_flags x ||| F_HEADER⟩ : Entry).kind = segment_flags x := by
  constructor
  · show (segment_flags x ||| F_HEADER) &&& F_HEADER ≠ 0#32
    rw [BitVec.and_or_distrib_right, segment_flags_and_header]
    decide
  · show (segment_flags x ||| F_HEADER) &&& ~~~F_HEADER = segment_flags x
    rw [BitVec.and_or_distrib_right, and_not_eq_self (segment_flags_and_header x)]
    exact (congrArg₂ _ rfl (by decide)).trans BitVec.or_zero

theorem no_header_mark (x : Classed) :
    ¬(⟨x.num, x.sec, segment_flags x⟩ : Entry).header ∧
      (⟨x.num, x.sec, segment_flags x⟩ : Entry).kind = segment_flags x :=
  ⟨fun h => h (segment_flags_and_header x), and_not_eq_self (segment_flags_and_header x)⟩

/-- The marks are those of segments, of the sections in memory, which come first. -/
theorem mark_headers_spec (f0 : BitVec 32) {xs : List Classed} (hsorted : xs.Pairwise fun a b => a.cls ≤ b.cls)
    (hcls : ∀ x ∈ xs, x.cls < 0x700 ↔ x.sec.alloc) :
    ∃ allocated others, mark_headers f0 xs = allocated ++ others ∧
      (∀ e ∈ allocated, e.f ≠ 0#32 ∧ e.sec.alloc) ∧ (∀ e ∈ others, e.f = 0#32 ∧ ¬e.sec.alloc) ∧
      Marked f0 allocated ∧
      (allocated ++ others).map (fun e => (e.num, e.sec)) = xs.map fun x => (x.num, x.sec) := by
  induction xs generalizing f0 with
  | nil => exact ⟨[], [], rfl, by simp, by simp, trivial, rfl⟩
  | cons x xs ih =>
    obtain ⟨hle, hsorted'⟩ := List.pairwise_cons.mp hsorted
    have hcls' : ∀ y ∈ xs, y.cls < 0x700 ↔ y.sec.alloc := fun y hy => hcls y (List.mem_cons_of_mem _ hy)
    by_cases hlt : x.cls < 0x700
    · have halloc := (hcls x List.mem_cons_self).mp hlt
      have hne := segment_flags_ne_zero halloc
      by_cases hflags : segment_flags x = f0
      · obtain ⟨allocated, others, hmark, hall, hothers, hmarked, hmap⟩ := ih f0 hsorted' hcls'
        refine ⟨⟨x.num, x.sec, segment_flags x⟩ :: allocated, others, ?_, ?_, hothers, ⟨?_, ?_⟩, ?_⟩
        · rw [mark_headers, if_pos hlt, if_neg (not_not_intro hflags), hmark, List.cons_append]
        · exact List.forall_mem_cons.mpr ⟨⟨hne, halloc⟩, hall⟩
        · exact fun _ => (no_header_mark x).2.trans hflags
        · rw [(no_header_mark x).2, hflags]
          exact hmarked
        · rw [List.cons_append, List.map_cons, hmap, List.map_cons]
      · obtain ⟨allocated, others, hmark, hall, hothers, hmarked, hmap⟩ := ih (segment_flags x) hsorted' hcls'
        refine ⟨⟨x.num, x.sec, segment_flags x ||| F_HEADER⟩ :: allocated, others, ?_, ?_, hothers, ⟨?_, ?_⟩, ?_⟩
        · rw [mark_headers, if_pos hlt, if_pos hflags, hmark, List.cons_append]
        · refine List.forall_mem_cons.mpr ⟨⟨fun hzero => (header_mark x).1 ?_, halloc⟩, hall⟩
          show (⟨x.num, x.sec, segment_flags x ||| F_HEADER⟩ : Entry).f &&& F_HEADER = 0#32
          rw [hzero]
          rfl
        · exact fun hheader => absurd (header_mark x).1 hheader
        · rw [(header_mark x).2]
          exact hmarked
        · rw [List.cons_append, List.map_cons, hmap, List.map_cons]
    · -- behind a section that is not in memory there are none that are
      have hnone : ∀ y ∈ x :: xs, ¬y.cls < 0x700 := by
        intro y hy
        rcases List.mem_cons.mp hy with rfl | hy
        · exact hlt
        · have := hle y hy
          omega
      have hmark : ∀ ys : List Classed, (∀ y ∈ ys, ¬y.cls < 0x700) →
          mark_headers f0 ys = ys.map fun y => ⟨y.num, y.sec, 0#32⟩ := by
        intro ys hys
        induction ys with
        | nil => rfl
        | cons y ys ihys =>
          rw [mark_headers, if_neg (hys y List.mem_cons_self), List.map_cons,
            ihys fun z hz => hys z (List.mem_cons_of_mem _ hz)]
      refine ⟨[], mark_headers f0 (x :: xs), rfl, by simp, ?_, trivial, ?_⟩
      · rw [hmark _ hnone]
        intro e he
        obtain ⟨y, hy, rfl⟩ := List.mem_map.mp he
        exact ⟨rfl, fun h => hnone y hy ((hcls y hy).mpr h)⟩
      · rw [List.nil_append, hmark _ hnone, List.map_map]
        rfl

theorem classed_cls {sp : Special} {sections : List Section} {x : Classed} (hx : x ∈ classed sp sections) :
    x.cls < 0x700 ↔ x.sec.alloc := by
  obtain ⟨k, hk, rfl⟩ := List.mem_mapIdx.mp hx
  exact section_class_lt_iff sp _ _ _

/-- The sections that are in memory come first, in segments, and every section is there once. -/
theorem sort_sections_spec (sp : Special) (sections : List Section) :
    ∃ allocated others, sort_sections sp sections = allocated ++ others ∧
      (∀ e ∈ allocated, e.f ≠ 0#32 ∧ e.sec.alloc) ∧ (∀ e ∈ others, e.f = 0#32 ∧ ¬e.sec.alloc) ∧
      Marked 0#32 allocated ∧ ((allocated ++ others).map fun e => (e.num, e.sec)).Perm
        (sections.mapIdx fun k s => (k + 1, s)) := by
  obtain ⟨hperm, hsorted⟩ := foldl_place_class (classed sp sections) [] List.Pairwise.nil
  rw [List.nil_append] at hperm
  obtain ⟨allocated, others, hsort, hall, hothers, hmarked, hmap⟩ := mark_headers_spec 0#32 hsorted
    fun x hx => classed_cls (hperm.mem_iff.mp hx)
  refine ⟨allocated, others, hsort, hall, hothers, hmarked, ?_⟩
  rw [hmap]
  refine (hperm.map _).trans (List.Perm.of_eq ?_)
  exact List.ext_getElem (by simp [classed]) fun i _ _ => by simp [classed]

theorem tls_iff_kind (e : Entry) : e.tls ↔ e.kind &&& SHF_TLS ≠ 0#32 := by
  unfold Entry.tls Entry.kind
  rw [BitVec.and_assoc]
  exact Iff.rfl

/-- The sections of a segment are all of one kind. -/
theorem Marked.kind_eq {f0 : BitVec 32} {t q : List Entry} (hmarked : Marked f0 (t ++ q))
    (hothers : ∀ e ∈ t, ¬e.header) : ∀ e ∈ t, e.kind = f0 := by
  induction t generalizing f0 with
  | nil => simp
  | cons d t ih =>
    obtain ⟨hd, hrest⟩ := hmarked
    have heq := hd (hothers d List.mem_cons_self)
    rw [heq] at hrest
    exact List.forall_mem_cons.mpr ⟨heq, ih hrest fun e he => hothers e (List.mem_cons_of_mem _ he)⟩

theorem Marked.drop {f0 : BitVec 32} {p q : List Entry} (hmarked : Marked f0 (p ++ q)) :
    ∃ f1, Marked f1 q := by
  induction p generalizing f0 with
  | nil => exact ⟨f0, hmarked⟩
  | cons d p ih => exact ih hmarked.2

end tcc.output
