import Mathlib.Algebra.Group.Action.Defs
import Tcc.Output.Loads

/-! Which files can be loaded. -/

namespace tcc.output

open machine machine.placement machine.buffer tcc.obj

def Entry.addr (e : Entry) : Nat := e.sec.sh_addr.toNat

/-- A section is in the part of the memory that a header names. -/
def Phdr.InMemory (ph : Phdr) (e : Entry) : Prop :=
  ph.p_vaddr.toNat ≤ e.addr ∧ e.addr + e.sec.size ≤ ph.p_vaddr.toNat + ph.p_memsz.toNat

/-- A loader that maps the segments finds the sections at their addresses, and the file has their
    contents where they are mapped from. -/
structure Loadable (sections : List Section) (l : Layout) : Prop where
  every : ∀ k s, sections[k]? = some s → ∃ e ∈ l.entries, e.num = k + 1 ∧
    e.sec = { s with sh_offset := e.sec.sh_offset, sh_addr := e.sec.sh_addr }
  disjoint : l.entries.Pairwise fun x y => x.sec.alloc → y.sec.alloc →
    x.addr + x.sec.size ≤ y.addr ∨ y.addr + y.sec.size ≤ x.addr
  aligned : ∀ e ∈ l.entries, e.sec.alloc → e.sec.align ∣ e.addr
  one_segment : ∀ e ∈ l.entries, e.sec.alloc → e.sec.size ≠ 0 →
    ∃! i : Nat, ∃ ph : Phdr, l.phdrs[i]? = some ph ∧ ph.p_type = PT_LOAD ∧ ph.InMemory e
  mapped : ∀ e ∈ l.entries, ∀ ph ∈ l.phdrs, e.sec.alloc → e.sec.size ≠ 0 → ph.p_type = PT_LOAD → ph.InMemory e →
    (¬e.sec.nobits → e.addr + ph.p_offset.toNat = e.offset + ph.p_vaddr.toNat ∧ ph.p_offset.toNat ≤ e.offset ∧
      e.offset + e.sec.size ≤ ph.p_offset.toNat + ph.p_filesz.toNat) ∧
    (e.sec.nobits → ph.p_vaddr.toNat + ph.p_filesz.toNat ≤ e.addr)
  congruent : ∀ ph ∈ l.phdrs, ph.p_type = PT_LOAD → ph.p_vaddr.toNat ≡ ph.p_offset.toNat [MOD ph.p_align.toNat]
  written : ∀ e_type e_entry (data : Nat → obj.Bytes),
    (∀ e ∈ l.entries, ¬e.sec.nobits → e.sec.size ≤ (data e.num).length) → ∀ e ∈ l.entries, ¬e.sec.nobits →
      Holds (tcc_output_elf e_type e_entry l data) e.offset ((data e.num).take e.sec.size)

/-- What sections must be like. In memory there is nothing that is local to threads; the segments
    stay in step with the pages over what is not in the file; the headers fit in a page; and what is
    not in the file is at the ends of the segments, where nothing is behind it but more of it. -/
structure Mappable (c : Config) (sections : List Section) : Prop where
  tls : ∀ e ∈ allocated c sections, e.sec.size ≠ 0 → ¬e.tls
  pages : ∀ p h q, allocated c sections = p ++ h :: q → h.header → ¬h.tls →
    c.s_align.toNat ∣ c.base.toNat + unfilled (blocks p)
  headers_fit : ∀ p e q, allocated c sections = p ++ e :: q → e.sec.size ≠ 0 → count_headers (p ++ [e]) = 1 →
    headers c sections < c.s_align.toNat
  ends : ∀ p d q e r, allocated c sections = p ++ d :: q ++ e :: r → d.sec.nobits → d.sec.size ≠ 0 →
    (∀ x ∈ q ++ [e], ¬x.header) → e.sec.filled = 0 ∧
      e.sec.align ∣ ((start_cursor c sections).walk c.s_align.toNat (blocks (p ++ d :: q))).addr

section

variable {c : Config} {sections : List Section} {others xs us : List Entry} {phs : List Phdr}
  (hlaid : Laid c sections others xs us phs)
include hlaid

namespace Laid

/-- A section of the file is a section in memory at its place, or it is not in memory. -/
theorem entry_cases {x : Entry} (hx : x ∈ (layout_sections c sections).entries) :
    (∃ p e q, allocated c sections = p ++ e :: q ∧
        PlacedAt c.s_align.toNat ((start_cursor c sections).walk c.s_align.toNat (blocks p)) e x) ∨
      ¬x.sec.alloc := by
  rw [hlaid.entries] at hx
  rcases List.mem_append.mp hx with hx | hx
  · exact .inl (hlaid.placed.exists_entry hx)
  · obtain ⟨e, he, hhas⟩ := hlaid.others_from x hx
    refine .inr ?_
    rw [hhas]
    exact hlaid.others_alloc e he

theorem exists_placed {p q : List Entry} {e : Entry} (hsplit : allocated c sections = p ++ e :: q) :
    ∃ x ∈ (layout_sections c sections).entries,
      PlacedAt c.s_align.toNat ((start_cursor c sections).walk c.s_align.toNat (blocks p)) e x := by
  obtain ⟨x, hx, hplaced⟩ := hlaid.placed.2 p e q hsplit
  refine ⟨x, ?_, hplaced⟩
  rw [hlaid.entries]
  exact List.mem_append_left _ (List.mem_of_getElem? hx)

/-- The headers of segments are those among which a header is found that says so. -/
theorem load_iff : ∃ n : Nat, ∀ ph : Phdr, ph.p_type = PT_LOAD → ∀ i : Nat,
    (layout_sections c sections).phdrs[i]? = some ph ↔ n ≤ i ∧ phs[i - n]? = some ph := by
  obtain ⟨first, other, hphdrs, htype⟩ := hlaid.phdrs
  refine ⟨first.length, fun ph hload i => ?_⟩
  rw [hphdrs, List.append_assoc]
  constructor
  · intro hi
    rcases Nat.lt_or_ge i first.length with hlt | hge
    · rw [List.getElem?_append_left hlt] at hi
      exact absurd hload (htype ph (List.mem_append_left _ (List.mem_of_getElem? hi)))
    · rw [List.getElem?_append_right hge] at hi
      rcases Nat.lt_or_ge (i - first.length) phs.length with hlt | hge'
      · rw [List.getElem?_append_left hlt] at hi
        exact ⟨hge, hi⟩
      · rw [List.getElem?_append_right hge'] at hi
        exact absurd hload (htype ph (List.mem_append_right _ (List.mem_of_getElem? hi)))
  · rintro ⟨hge, hi⟩
    obtain ⟨hlt, -⟩ := List.getElem?_eq_some_iff.mp hi
    rw [List.getElem?_append_right hge, List.getElem?_append_left hlt]
    exact hi

theorem mem_loads {ph : Phdr} (hload : ph.p_type = PT_LOAD) :
    ph ∈ (layout_sections c sections).phdrs ↔ ph ∈ phs := by
  obtain ⟨n, hiff⟩ := hlaid.load_iff
  constructor
  · intro hph
    obtain ⟨i, hi⟩ := List.mem_iff_getElem?.mp hph
    exact List.mem_of_getElem? ((hiff ph hload i).mp hi).2
  · intro hph
    obtain ⟨i, hi⟩ := List.mem_iff_getElem?.mp hph
    exact List.mem_of_getElem? ((hiff ph hload (n + i)).mpr ⟨Nat.le_add_right n i, by rwa [Nat.add_sub_cancel_left]⟩)

/-- No section that takes space is in two segments. -/
theorem inMemory_unique {x : Entry} (hsize : x.sec.size ≠ 0) {i j : Nat} {ph ph' : Phdr} (hi : phs[i]? = some ph)
    (hj : phs[j]? = some ph') (hin : ph.InMemory x) (hin' : ph'.InMemory x) : i = j := by
  have hpairwise := hlaid.segments.pairwise
  rw [List.pairwise_iff_getElem] at hpairwise
  obtain ⟨hlt_i, rfl⟩ := List.getElem?_eq_some_iff.mp hi
  obtain ⟨hlt_j, rfl⟩ := List.getElem?_eq_some_iff.mp hj
  unfold Phdr.InMemory at hin hin'
  rcases Nat.lt_trichotomy i j with hlt | heq | hgt
  · have := hpairwise i j hlt_i hlt_j hlt
    omega
  · exact heq
  · have := hpairwise j i hlt_j hlt_i hgt
    omega

end Laid

omit hlaid in
theorem walk_opened {p : List Entry} (hstart : p ≠ [] → ∃ e p', p = e :: p' ∧ e.header) :
    (((start_cursor c sections).walk c.s_align.toNat (blocks p)).opened = 0 → p = []) := by
  intro hzero
  by_contra hne
  obtain ⟨e, p', rfl, hheader⟩ := hstart hne
  have := (start_cursor c sections).walk_opened_pos c.s_align.toNat (show e.block.opens from hheader) (blocks p')
  exact this.ne' hzero

omit hlaid in
theorem walk_first {p : List Entry} (hstart : p ≠ [] → ∃ e p', p = e :: p' ∧ e.header)
    (hzero : ((start_cursor c sections).walk c.s_align.toNat (blocks p)).opened = 0) :
    (start_cursor c sections).walk c.s_align.toNat (blocks p) = start_cursor c sections := by
  rw [walk_opened hstart hzero]
  rfl

omit hlaid in
theorem lag_eq {p : List Entry} (hstart : p ≠ [] → ∃ e p', p = e :: p' ∧ e.header) :
    lag c ((start_cursor c sections).walk c.s_align.toNat (blocks p)) =
      if p = [] then headers c sections - headers c sections % c.s_align.toNat else 0 := by
  by_cases hp : p = []
  · subst hp
    rw [if_pos rfl]
    show (if (0 : Nat) = 0 then c.base.toNat + headers c sections -
      (c.base.toNat + headers c sections % c.s_align.toNat) else 0) = _
    rw [if_pos rfl]
    omega
  · rw [if_neg hp]
    exact if_neg fun hzero => hp (walk_opened hstart hzero)

omit hlaid in
/-- A segment is in step with the pages if and only if what is in the memory only before it is a
    number of pages from the start. -/
theorem congruent_iff {p t : List Entry} {h : Entry} {ph : Phdr}
    (hstart : p ≠ [] → ∃ e p', p = e :: p' ∧ e.header)
    (hsegment : SegmentPhdr c ((start_cursor c sections).walk c.s_align.toNat (blocks p)) h t ph) :
    ph.p_vaddr.toNat ≡ ph.p_offset.toNat [MOD c.s_align.toNat] ↔
      c.s_align.toNat ∣ c.base.toNat + unfilled (blocks p) := by
  rw [hsegment.p_vaddr, hsegment.p_offset]
  by_cases hp : p = []
  · subst hp
    exact Nat.modEq_zero_iff_dvd
  · have hne : ((start_cursor c sections).walk c.s_align.toNat (blocks p)).opened ≠ 0 :=
      fun hzero => hp (walk_opened hstart hzero)
    rw [if_neg hne, if_neg hne]
    have hwalk := (start_cursor c sections).walk_modEq c.s_align.toNat (blocks p)
    generalize (start_cursor c sections).walk c.s_align.toNat (blocks p) = k at hwalk
    have hheaders : headers c sections % c.s_align.toNat ≡ headers c sections [MOD c.s_align.toNat] :=
      Nat.mod_modEq _ _
    have hsum : (k.start c.s_align.toNat h.block).addr + (k.offset + headers c sections) ≡
        c.base.toNat + unfilled (blocks p) + (k.start c.s_align.toNat h.block).offset +
          (k.offset + headers c sections) [MOD c.s_align.toNat] := by
      calc (k.start c.s_align.toNat h.block).addr + (k.offset + headers c sections)
          = k.hop c.s_align.toNat h.block + ((k.start c.s_align.toNat h.block).offset + headers c sections) := by
            have := k.start_addr_eq c.s_align.toNat h.block
            omega
        _ ≡ k.addr + ((k.start c.s_align.toNat h.block).offset + headers c sections) [MOD c.s_align.toNat] :=
            (k.hop_modEq c.s_align.toNat h.block).add_right _
        _ = k.addr + headers c sections + (k.start c.s_align.toNat h.block).offset := by omega
        _ ≡ c.base.toNat + headers c sections % c.s_align.toNat + k.offset + unfilled (blocks p) +
              (k.start c.s_align.toNat h.block).offset [MOD c.s_align.toNat] := hwalk.add_right _
        _ = headers c sections % c.s_align.toNat + (c.base.toNat + k.offset + unfilled (blocks p) +
              (k.start c.s_align.toNat h.block).offset) := by omega
        _ ≡ headers c sections + (c.base.toNat + k.offset + unfilled (blocks p) +
              (k.start c.s_align.toNat h.block).offset) [MOD c.s_align.toNat] := hheaders.add_right _
        _ = _ := by omega
    have heq := Nat.ModEq.add_right_cancel' _ hsum
    constructor
    · intro hcongr
      refine Nat.modEq_zero_iff_dvd.mp (Nat.ModEq.add_right_cancel' (k.start c.s_align.toNat h.block).offset ?_)
      rw [Nat.zero_add]
      exact heq.symm.trans hcongr
    · intro hdvd
      have hzero := (Nat.modEq_zero_iff_dvd.mpr hdvd).add_right (k.start c.s_align.toNat h.block).offset
      rw [Nat.zero_add] at hzero
      exact heq.trans hzero

namespace Laid

/-- The sections of a segment are of the kind of the first. -/
theorem tls_iff {p t q : List Entry} {h : Entry} (hsplit : allocated c sections = p ++ (h :: t ++ q))
    (hothers : ∀ e ∈ t, ¬e.header) : ∀ e ∈ h :: t, e.tls ↔ h.tls := by
  have hmarked := hlaid.marked
  rw [hsplit] at hmarked
  obtain ⟨f1, -, hrest⟩ := hmarked.drop
  refine List.forall_mem_cons.mpr ⟨Iff.rfl, fun e he => ?_⟩
  rw [tls_iff_kind, tls_iff_kind, hrest.kind_eq hothers e he]

theorem tls_iff_type {p t q : List Entry} {h : Entry} {ph : Phdr}
    (hsplit : allocated c sections = p ++ (h :: t ++ q)) (hothers : ∀ e ∈ t, ¬e.header)
    (hsegment : SegmentPhdr c ((start_cursor c sections).walk c.s_align.toNat (blocks p)) h t ph) :
    ∀ e ∈ h :: t, ph.p_type = PT_LOAD ↔ ¬e.tls := by
  intro e he
  rw [hlaid.tls_iff hsplit hothers e he, hsegment.p_type]
  by_cases htls : h.tls
  · rw [if_pos htls]
    exact iff_of_false (by decide) (not_not_intro htls)
  · rw [if_neg htls]
    exact iff_of_true rfl htls

end Laid

omit hlaid in
/-- A section is in the memory of its segment. -/
theorem inMemory_of_placed {p t s1 s2 : List Entry} {h e x : Entry} {ph : Phdr}
    (hstart : p ≠ [] → ∃ e p', p = e :: p' ∧ e.header)
    (hsegment : SegmentPhdr c ((start_cursor c sections).walk c.s_align.toNat (blocks p)) h t ph)
    (hin : h :: t = s1 ++ e :: s2)
    (hplaced : PlacedAt c.s_align.toNat ((start_cursor c sections).walk c.s_align.toNat (blocks (p ++ s1))) e x) :
    ph.InMemory x ∧ ph.p_offset.toNat ≤ x.offset ∧
      x.offset + x.sec.filled ≤ ph.p_offset.toNat + ph.p_filesz.toNat ∧
      (SectionMapped c.s_align.toNat ((start_cursor c sections).walk c.s_align.toNat (blocks p)) ph s1 e ↔
        (¬x.sec.nobits → x.addr + ph.p_offset.toNat = x.offset + ph.p_vaddr.toNat) ∧
          (x.sec.nobits → ph.p_vaddr.toNat + ph.p_filesz.toNat ≤ x.addr)) := by
  rw [blocks_append, Cursor.walk_append] at hplaced
  have hbase : ((start_cursor c sections).walk c.s_align.toNat (blocks p)).opened = 0 →
      c.base.toNat ≤ ((start_cursor c sections).walk c.s_align.toNat (blocks p)).addr := by
    intro hzero
    rw [walk_first hstart hzero]
    exact Nat.le_add_right _ _
  obtain ⟨hvaddr, hmem, hoffset, hfile⟩ := hsegment.bounds hin hbase
  have haddr : x.addr = _ := hplaced.addr
  have hoff : x.offset = _ := hplaced.offset
  have hsize : x.sec.size = e.sec.size := by
    rw [hplaced.has]
    rfl
  have hnobits : x.sec.nobits ↔ e.sec.nobits := by
    rw [hplaced.has]
    rfl
  refine ⟨⟨by omega, by omega⟩, by omega, ?_, ?_⟩
  · rw [hplaced.has.filled]
    omega
  · rw [SectionMapped, hnobits, haddr, hoff]

omit hlaid in
/-- The addresses of the first segment. -/
theorem first_bounds {p : List Entry} (hstart : p ≠ [] → ∃ e p', p = e :: p' ∧ e.header)
    (hzero : ((start_cursor c sections).walk c.s_align.toNat (blocks p)).opened = 0) :
    c.base.toNat ≤ ((start_cursor c sections).walk c.s_align.toNat (blocks p)).addr ∧
      ((start_cursor c sections).walk c.s_align.toNat (blocks p)).addr ≤
        c.base.toNat + ((start_cursor c sections).walk c.s_align.toNat (blocks p)).offset := by
  rw [walk_first hstart hzero]
  exact ⟨Nat.le_add_right _ _, Nat.add_le_add_left (Nat.mod_le _ _) _⟩

omit hlaid in
/-- Up to a section of a segment there is one header, the first. -/
theorem count_headers_segment {h e : Entry} {t s1 s2 : List Entry} (hheader : h.header) (hothers : ∀ e ∈ t, ¬e.header)
    (hin : h :: t = s1 ++ e :: s2) : count_headers (s1 ++ [e]) = 1 := by
  have hnone : ∀ l : List Entry, (∀ x ∈ l, x ∈ t) → count_headers l = 0 := fun l hl =>
    List.countP_eq_zero.mpr fun x hx => by simpa using hothers x (hl x hx)
  have hhead : ∀ l : List Entry, (∀ x ∈ l, x ∈ t) → count_headers (h :: l) = 1 := fun l hl => by
    have hcons : count_headers (h :: l) = count_headers l + 1 := List.countP_cons_of_pos (decide_eq_true hheader)
    rw [hcons, hnone l hl]
  cases s1 with
  | nil =>
    cases hin
    exact hhead [] (by simp)
  | cons x s1 =>
    cases hin
    exact hhead (s1 ++ [e]) fun y hy => by
      rcases List.mem_append.mp hy with hy | hy
      · exact List.mem_append_left _ hy
      · rw [List.mem_singleton.mp hy]
        simp

namespace Laid

theorem align_eq {e : Entry} (he : e ∈ allocated c sections) : e.block.align = e.sec.align :=
  block_align (hlaid.fits.aligned e he)

section necessary

variable (hloadable : Loadable sections (layout_sections c sections))
include hloadable

theorem not_tls : ∀ e ∈ allocated c sections, e.sec.size ≠ 0 → ¬e.tls := by
  intro e he hsize htls
  obtain ⟨p', q', hsplit⟩ := List.append_of_mem he
  obtain ⟨x, hx, hplaced⟩ := hlaid.exists_placed hsplit
  obtain ⟨i, ph, p, h, t, q, s1, s2, hph, hseg, hheader, hothers, hsegment, hin, rfl, rfl, -, hstart⟩ :=
    hlaid.segments.find hsplit
  have hmemory := (inMemory_of_placed hstart hsegment hin hplaced).1
  have hxsize : x.sec.size ≠ 0 := by
    rw [hplaced.has]
    exact hsize
  obtain ⟨n, hload⟩ := hlaid.load_iff
  obtain ⟨j, ⟨ph', hph', hload', hmemory'⟩, -⟩ := hloadable.one_segment x hx
    (by rw [hplaced.has]; exact hlaid.alloc e he) hxsize
  obtain ⟨-, hj⟩ := (hload ph' hload' j).mp hph'
  have hij := hlaid.inMemory_unique hxsize hph hj hmemory hmemory'
  rw [← hij, hph] at hj
  cases hj
  have htype := hlaid.tls_iff_type hseg hothers hsegment e (by rw [hin]; simp)
  exact htype.mp hload' htls

/-- A segment with a section that takes space is mapped as it should be. -/
theorem segment_in_step {p t q : List Entry} {h : Entry} {ph : Phdr} (hph : phs.Mem ph)
    (hseg : allocated c sections = p ++ (h :: t ++ q)) (hothers : ∀ e ∈ t, ¬e.header)
    (hsegment : SegmentPhdr c ((start_cursor c sections).walk c.s_align.toNat (blocks p)) h t ph)
    (hstart : p ≠ [] → ∃ e p', p = e :: p' ∧ e.header) :
    ((∃ e ∈ h :: t, e.sec.size ≠ 0) →
        lag c ((start_cursor c sections).walk c.s_align.toNat (blocks p)) = 0) ∧
      Unfilled c.s_align.toNat ((start_cursor c sections).walk c.s_align.toNat (blocks p)) (h :: t) := by
  refine (hsegment.mapped_iff hothers (fun hzero => (first_bounds hstart hzero).2)
    fun hzero => (first_bounds hstart hzero).1).mp fun s1 e s2 hin hsize => ?_
  have hsplit : allocated c sections = (p ++ s1) ++ e :: (s2 ++ q) := by
    rw [hseg, hin]
    simp
  have he : e ∈ allocated c sections := by
    rw [hsplit]
    simp
  obtain ⟨x, hx, hplaced⟩ := hlaid.exists_placed hsplit
  obtain ⟨hmemory, -, -, hiff⟩ := inMemory_of_placed hstart hsegment hin hplaced
  have htype := (hlaid.tls_iff_type hseg hothers hsegment e (by rw [hin]; simp)).mpr
    (hlaid.not_tls hloadable e he hsize)
  have hmapped := hloadable.mapped x hx ph ((hlaid.mem_loads htype).mpr hph)
    (by rw [hplaced.has]; exact hlaid.alloc e he) (by rw [hplaced.has]; exact hsize) htype hmemory
  exact hiff.mpr ⟨fun hnobits => (hmapped.1 hnobits).1, hmapped.2⟩

theorem pages_in_step {p q : List Entry} {h : Entry} (hsplit : allocated c sections = p ++ h :: q)
    (hheader : h.header) (hnot : ¬h.tls) : c.s_align.toNat ∣ c.base.toNat + unfilled (blocks p) := by
  obtain ⟨i, ph, p', h', t, q', s1, s2, hph, hseg, -, hothers, hsegment, hin, rfl, rfl, -, hstart⟩ :=
    hlaid.segments.find hsplit
  cases s1 with
  | cons d s1 =>
    obtain ⟨rfl, rfl⟩ := List.cons.inj hin
    exact absurd hheader (hothers h (by simp))
  | nil =>
    obtain ⟨rfl, rfl⟩ := List.cons.inj hin
    rw [List.append_nil]
    have htype := (hlaid.tls_iff_type hseg hothers hsegment h' List.mem_cons_self).mpr hnot
    have hcongr := hloadable.congruent ph ((hlaid.mem_loads htype).mpr (List.mem_of_getElem? hph)) htype
    rw [hsegment.p_align hnot] at hcongr
    exact (congruent_iff hstart hsegment).mp hcongr

theorem headers_in_page (hpos : 0 < c.s_align.toNat) {p q : List Entry} {e : Entry}
    (hsplit : allocated c sections = p ++ e :: q) (hsize : e.sec.size ≠ 0) (hone : count_headers (p ++ [e]) = 1) :
    headers c sections < c.s_align.toNat := by
  obtain ⟨i, ph, p', h, t, q', s1, s2, hph, hseg, hheader, hothers, hsegment, hin, rfl, rfl, -, hstart⟩ :=
    hlaid.segments.find hsplit
  have hp' : p' = [] := by
    by_contra hne
    obtain ⟨d, p'', rfl, hd⟩ := hstart hne
    have hcount : count_headers (d :: p'' ++ s1 ++ [e]) =
        count_headers p'' + 1 + count_headers (s1 ++ [e]) := by
      rw [List.append_assoc]
      exact List.countP_append.trans (congrArg (· + _) (List.countP_cons_of_pos (decide_eq_true hd)))
    have hsecond := count_headers_segment hheader hothers hin
    omega
  subst hp'
  have hlag := (hlaid.segment_in_step hloadable (List.mem_of_getElem? hph) hseg hothers hsegment hstart).1
    ⟨e, by rw [hin]; simp, hsize⟩
  rw [lag_eq hstart, if_pos rfl] at hlag
  have := Nat.mod_lt (headers c sections) hpos
  omega

theorem unfilled_at_ends {p q r : List Entry} {d e : Entry}
    (hsplit : allocated c sections = p ++ d :: q ++ e :: r) (hnobits : d.sec.nobits) (hsize : d.sec.size ≠ 0)
    (hsame : ∀ x ∈ q ++ [e], ¬x.header) :
    e.sec.filled = 0 ∧
      e.sec.align ∣ ((start_cursor c sections).walk c.s_align.toNat (blocks (p ++ d :: q))).addr := by
  have hsplit' : allocated c sections = p ++ d :: (q ++ e :: r) := by rw [hsplit]; simp
  obtain ⟨i, ph, p', h, t, q', s1, s2, hph, hseg, hheader, hothers, hsegment, hin, rfl, hrest, hnext, hstart⟩ :=
    hlaid.segments.find hsplit'
  -- the two are in one segment
  obtain ⟨r', rfl⟩ : ∃ r', s2 = q ++ e :: r' := by
    have hrest' : (q ++ [e]) ++ r = s2 ++ q' := by rw [← hrest]; simp
    rcases List.append_eq_append_iff.mp hrest' with ⟨a, rfl, -⟩ | ⟨a, ha, rfl⟩
    · exact ⟨a, by simp⟩
    · cases a with
      | nil => exact ⟨[], by simpa using ha.symm⟩
      | cons x a => exact absurd (hnext x rfl) (hsame x (by rw [ha]; simp))
  obtain ⟨hfilled, hdvd⟩ := (hlaid.segment_in_step hloadable (List.mem_of_getElem? hph) hseg hothers hsegment hstart).2
    s1 d q e r' (by rw [hin]; simp) hnobits hsize
  refine ⟨hfilled, ?_⟩
  rw [hlaid.align_eq (by rw [hsplit]; simp), ← Cursor.walk_append, ← blocks_append] at hdvd
  rw [List.append_assoc]
  exact hdvd

end necessary

theorem every_section {k : Nat} {s : Section} (hs : sections[k]? = some s) :
    ∃ e ∈ (layout_sections c sections).entries, e.num = k + 1 ∧
      e.sec = { s with sh_offset := e.sec.sh_offset, sh_addr := e.sec.sh_addr } := by
  obtain ⟨hk, rfl⟩ := List.getElem?_eq_some_iff.mp hs
  have hmem : (k + 1, sections[k]) ∈ sections.mapIdx fun k s => (k + 1, s) := List.mem_mapIdx.mpr ⟨k, hk, rfl⟩
  obtain ⟨e, he, heq⟩ := List.mem_map.mp (hlaid.perm.mem_iff.mpr hmem)
  obtain ⟨hnum, hsec⟩ := Prod.mk.inj heq
  obtain ⟨x, hx, hhas⟩ : ∃ x ∈ (layout_sections c sections).entries, e.Has x := by
    rw [hlaid.sorted] at he
    rcases List.mem_append.mp he with he | he
    · obtain ⟨p, q, hsplit⟩ := List.append_of_mem he
      obtain ⟨x, hx, hplaced⟩ := hlaid.exists_placed hsplit
      exact ⟨x, hx, hplaced.has⟩
    · obtain ⟨x, hx, hhas⟩ := hlaid.others_to e he
      refine ⟨x, ?_, hhas⟩
      rw [hlaid.entries]
      exact List.mem_append_right _ hx
  refine ⟨x, hx, ?_, ?_⟩
  · rw [hhas]
    exact hnum
  · rw [← hsec]
    exact congrArg Entry.sec hhas

theorem sections_disjoint : (layout_sections c sections).entries.Pairwise fun x y => x.sec.alloc → y.sec.alloc →
    x.addr + x.sec.size ≤ y.addr ∨ y.addr + y.sec.size ≤ x.addr := by
  rw [hlaid.entries]
  refine List.pairwise_append.mpr ⟨?_, ?_, ?_⟩
  · exact hlaid.placed.pairwise.2.imp fun hle _ _ => .inl hle
  · refine List.pairwise_of_forall_mem_list fun x hx y _ halloc => ?_
    obtain ⟨e, he, hhas⟩ := hlaid.others_from x hx
    rw [hhas] at halloc
    exact absurd halloc (hlaid.others_alloc e he)
  · intro x _ y hy _ halloc
    obtain ⟨e, he, hhas⟩ := hlaid.others_from y hy
    rw [hhas] at halloc
    exact absurd halloc (hlaid.others_alloc e he)

theorem sections_aligned {e : Entry} (he : e ∈ (layout_sections c sections).entries) (halloc : e.sec.alloc) :
    e.sec.align ∣ e.addr := by
  obtain ⟨p, d, q, hsplit, hplaced⟩ := (hlaid.entry_cases he).resolve_right (not_not_intro halloc)
  have haddr : e.addr = _ := hplaced.addr
  have halign : e.sec.align = d.sec.align := by
    rw [hplaced.has]
    rfl
  rw [haddr, halign, ← hlaid.align_eq (e := d) (by rw [hsplit]; simp)]
  exact Cursor.dvd_start_addr _ _ _

section sufficient

variable (hmappable : Mappable c sections)
include hmappable

theorem section_mapped {p t q s1 s2 : List Entry} {h e : Entry} {ph : Phdr}
    (hseg : allocated c sections = p ++ (h :: t ++ q)) (hothers : ∀ e ∈ t, ¬e.header)
    (hsegment : SegmentPhdr c ((start_cursor c sections).walk c.s_align.toNat (blocks p)) h t ph) (hheader : h.header)
    (hstart : p ≠ [] → ∃ e p', p = e :: p' ∧ e.header) (hin : h :: t = s1 ++ e :: s2) (hsize : e.sec.size ≠ 0) :
    SectionMapped c.s_align.toNat ((start_cursor c sections).walk c.s_align.toNat (blocks p)) ph s1 e := by
  refine (hsegment.mapped_iff hothers (fun hzero => (first_bounds hstart hzero).2)
    fun hzero => (first_bounds hstart hzero).1).mpr ⟨?_, ?_⟩ s1 e s2 hin hsize
  · rintro ⟨e, he, hsize⟩
    obtain ⟨s1, s2, hin⟩ := List.append_of_mem he
    rw [lag_eq hstart]
    split
    case isTrue hp =>
      subst hp
      have hone := count_headers_segment hheader hothers hin
      have hlt := hmappable.headers_fit s1 e (s2 ++ q) (by rw [hseg, hin]; simp) hsize hone
      rw [Nat.mod_eq_of_lt hlt, Nat.sub_self]
    case isFalse => rfl
  · intro s1 d q0 e r hin hnobits hsize
    have hsplit : allocated c sections = (p ++ s1) ++ d :: q0 ++ e :: (r ++ q) := by
      rw [hseg, hin]
      simp
    have hsame : ∀ x ∈ q0 ++ [e], ¬x.header := by
      intro x hx
      refine hothers x ?_
      have hmem : x ∈ q0 ++ e :: r := by
        rcases List.mem_append.mp hx with hx | hx
        · exact List.mem_append_left _ hx
        · rw [List.mem_singleton.mp hx]
          simp
      rw [List.append_assoc, List.cons_append] at hin
      cases s1 with
      | nil =>
        cases hin
        exact hmem
      | cons y s1 =>
        cases hin
        exact List.mem_append_right _ (List.mem_cons_of_mem _ hmem)
    obtain ⟨hfilled, hdvd⟩ := hmappable.ends _ _ _ _ _ hsplit hnobits hsize hsame
    refine ⟨hfilled, ?_⟩
    rw [hlaid.align_eq (by rw [hsplit]; simp), ← Cursor.walk_append, ← blocks_append, ← List.append_assoc]
    exact hdvd

/-- Where a section that takes space is. -/
theorem exists_segment {x : Entry} (hx : x ∈ (layout_sections c sections).entries) (halloc : x.sec.alloc)
    (hsize : x.sec.size ≠ 0) :
    ∃ (i : Nat) (ph : Phdr), phs[i]? = some ph ∧ ph.p_type = PT_LOAD ∧ ph.InMemory x ∧
      ph.p_offset.toNat ≤ x.offset ∧ x.offset + x.sec.filled ≤ ph.p_offset.toNat + ph.p_filesz.toNat ∧
      (¬x.sec.nobits → x.addr + ph.p_offset.toNat = x.offset + ph.p_vaddr.toNat) ∧
      (x.sec.nobits → ph.p_vaddr.toNat + ph.p_filesz.toNat ≤ x.addr) := by
  obtain ⟨p, e, q, hsplit, hplaced⟩ := (hlaid.entry_cases hx).resolve_right (not_not_intro halloc)
  obtain ⟨i, ph, p', h, t, q', s1, s2, hph, hseg, hheader, hothers, hsegment, hin, rfl, rfl, -, hstart⟩ :=
    hlaid.segments.find hsplit
  have hsize' : e.sec.size ≠ 0 := by
    rw [hplaced.has] at hsize
    exact hsize
  obtain ⟨hmemory, hle, hfile, hiff⟩ := inMemory_of_placed hstart hsegment hin hplaced
  have htype := (hlaid.tls_iff_type hseg hothers hsegment e (by rw [hin]; simp)).mpr
    (hmappable.tls e (by rw [hsplit]; simp) hsize')
  obtain ⟨hcontents, hnobits⟩ := hiff.mp
    (hlaid.section_mapped hmappable hseg hothers hsegment hheader hstart hin hsize')
  exact ⟨i, ph, hph, htype, hmemory, hle, hfile, hcontents, hnobits⟩

theorem in_one_segment {x : Entry} (hx : x ∈ (layout_sections c sections).entries) (halloc : x.sec.alloc)
    (hsize : x.sec.size ≠ 0) : ∃! i : Nat, ∃ ph : Phdr, (layout_sections c sections).phdrs[i]? = some ph ∧
      ph.p_type = PT_LOAD ∧ ph.InMemory x := by
  obtain ⟨n, hload⟩ := hlaid.load_iff
  obtain ⟨i, ph, hph, htype, hmemory, -⟩ := hlaid.exists_segment hmappable hx halloc hsize
  refine ⟨n + i, ⟨ph, (hload ph htype (n + i)).mpr ⟨Nat.le_add_right n i, ?_⟩, htype, hmemory⟩, ?_⟩
  · rwa [Nat.add_sub_cancel_left]
  · rintro j ⟨ph', hph', htype', hmemory'⟩
    obtain ⟨hle, hj⟩ := (hload ph' htype' j).mp hph'
    have := hlaid.inMemory_unique hsize hph hj hmemory hmemory'
    omega

theorem mapped_from_file {x : Entry} (hx : x ∈ (layout_sections c sections).entries) {ph : Phdr}
    (hph : ph ∈ (layout_sections c sections).phdrs) (halloc : x.sec.alloc) (hsize : x.sec.size ≠ 0)
    (htype : ph.p_type = PT_LOAD) (hmemory : ph.InMemory x) :
    (¬x.sec.nobits → x.addr + ph.p_offset.toNat = x.offset + ph.p_vaddr.toNat ∧ ph.p_offset.toNat ≤ x.offset ∧
      x.offset + x.sec.size ≤ ph.p_offset.toNat + ph.p_filesz.toNat) ∧
    (x.sec.nobits → ph.p_vaddr.toNat + ph.p_filesz.toNat ≤ x.addr) := by
  obtain ⟨i, ph', hi, -, hmemory', hle, hfile, hcontents, hnobits⟩ := hlaid.exists_segment hmappable hx halloc hsize
  obtain ⟨j, hj⟩ := List.mem_iff_getElem?.mp ((hlaid.mem_loads htype).mp hph)
  have hij := hlaid.inMemory_unique hsize hi hj hmemory' hmemory
  rw [← hij, hi] at hj
  cases hj
  refine ⟨fun hnot => ⟨hcontents hnot, hle, ?_⟩, hnobits⟩
  have hfilled : x.sec.filled = x.sec.size := if_neg hnot
  omega

theorem segments_congruent {ph : Phdr} (hph : ph ∈ (layout_sections c sections).phdrs) (htype : ph.p_type = PT_LOAD) :
    ph.p_vaddr.toNat ≡ ph.p_offset.toNat [MOD ph.p_align.toNat] := by
  obtain ⟨i, hi⟩ := List.mem_iff_getElem?.mp ((hlaid.mem_loads htype).mp hph)
  obtain ⟨p, h, t, q, hseg, hheader, hothers, -, hsegment, hstart⟩ := hlaid.segments.exists_segment hi
  have hnot := (hlaid.tls_iff_type hseg hothers hsegment h List.mem_cons_self).mp htype
  rw [hsegment.p_align hnot]
  exact (congruent_iff hstart hsegment).mpr (hmappable.pages p h (t ++ q) hseg hheader hnot)

end sufficient

end Laid

end

section

variable {c : Config} {sections : List Section} (hwf : WellFormed c sections)
include hwf

/-- What does not depend on what is not in the file. -/
theorem written_spec {others xs us : List Entry} {phs : List Phdr} (hlaid : Laid c sections others xs us phs)
    (e_type e_entry : Nat) {data : Nat → obj.Bytes}
    (hdata : ∀ e ∈ (layout_sections c sections).entries, ¬e.sec.nobits → e.sec.size ≤ (data e.num).length) :
    ∀ e ∈ (layout_sections c sections).entries, ¬e.sec.nobits →
      Holds (tcc_output_elf e_type e_entry (layout_sections c sections) data) e.offset
        ((data e.num).take e.sec.size) := by
  obtain ⟨hi, hlt, hin, -⟩ := hlaid.in_file
  intro e he hnobits
  have hle := hin.le
  unfold tcc_output_elf
  dsimp only
  have hheader : ∀ a b c' d f : Nat, (ehdr_bytes a b c' d f ++
      (layout_sections c sections).phdrs.flatMap Phdr.bytes).length = headers c sections := by
    intro a b c' d f
    rw [List.length_append, length_ehdr_bytes, List.length_flatMap, headers, ← hlaid.length_phdrs]
    have hall : (layout_sections c sections).phdrs.map (fun ph => ph.bytes.length) =
        List.replicate (layout_sections c sections).phdrs.length PHDR_SIZE :=
      List.eq_replicate_iff.mpr ⟨List.length_map _, fun n hn => by
        obtain ⟨ph, -, rfl⟩ := List.mem_map.mp hn
        exact ph.length_bytes⟩
    rw [hall, List.sum_replicate, smul_eq_mul]
  have hok : ∀ a b c' d f : Nat, (⟨ehdr_bytes a b c' d f ++ (layout_sections c sections).phdrs.flatMap Phdr.bytes,
      BitVec.ofNat 32 (EHDR_SIZE + (layout_sections c sections).phdrs.length * PHDR_SIZE)⟩ : Out).Ok := by
    intro a b c' d f
    refine ⟨?_, by rw [hheader]; omega⟩
    rw [hheader, BitVec.toNat_ofNat, hlaid.length_phdrs]
    refine Nat.mod_eq_of_lt ?_
    show headers c sections < _
    omega
  -- a section without a name is empty
  have hsize : e.sec.size ≠ 0 → e.sec.sh_name ≠ 0#32 := by
    intro hsize
    have hsec : ∃ d : Entry, d.Has e ∧ d.sec ∈ sections := by
      have hmem : ∀ d ∈ sort_sections c.special sections, d.sec ∈ sections := by
        intro d hd
        obtain ⟨k, hk, heq⟩ := List.mem_mapIdx.mp (hlaid.perm.mem_iff.mp (List.mem_map.mpr ⟨d, hd, rfl⟩))
        rw [← (Prod.mk.inj heq).2]
        exact List.getElem_mem hk
      rw [hlaid.sorted] at hmem
      rw [hlaid.entries] at he
      rcases List.mem_append.mp he with he | he
      · obtain ⟨p, d, q, hsplit, hplaced⟩ := hlaid.placed.exists_entry he
        exact ⟨d, hplaced.has, hmem d (List.mem_append_left _ (by rw [hsplit]; simp))⟩
      · obtain ⟨d, hd, hhas⟩ := hlaid.others_from e he
        exact ⟨d, hhas, hmem d (List.mem_append_right _ hd)⟩
    obtain ⟨d, hhas, hd⟩ := hsec
    have hname := hwf.named d.sec hd
    rw [hhas] at hsize ⊢
    exact hname fun hzero => hsize (congrArg BitVec.toNat hzero)
  by_cases hempty : e.sec.size = 0
  · intro i hi
    rw [hempty, List.take_zero] at hi
    cases hi
  · have hwritten : e ∈ if (layout_sections c sections).phdrs.length = 0 then (layout_sections c sections).entries
        else tidy_section_headers (layout_sections c sections).entries := by
      split
      · exact he
      · exact List.mem_filter.mpr ⟨he, decide_eq_true (hsize hempty)⟩
    have hin' : InFile (headers c sections)
        (if (layout_sections c sections).phdrs.length = 0 then (layout_sections c sections).entries
          else tidy_section_headers (layout_sections c sections).entries) hi := by
      split
      · exact hin
      · exact hin.filter _
    have hsub : ∀ d ∈ (if (layout_sections c sections).phdrs.length = 0 then (layout_sections c sections).entries
        else tidy_section_headers (layout_sections c sections).entries), d ∈ (layout_sections c sections).entries := by
      intro d hd
      split at hd
      · exact hd
      · exact (List.mem_filter.mp hd).1
    generalize (if (layout_sections c sections).phdrs.length = 0 then (layout_sections c sections).entries
      else tidy_section_headers (layout_sections c sections).entries) = written at hwritten hin' hsub
    have hdata' : ∀ d ∈ written, ¬d.sec.nobits → d.sec.size ≤ (data d.num).length :=
      fun d hd => hdata d (hsub d hd)
    obtain ⟨-, -, -, hall⟩ := write_sections_spec hin' hlt hdata' (hok _ _ _ _ _) (hheader _ _ _ _ _).le
    exact holds_append (holds_append (holds_append (hall e hwritten hnobits) _) _) _

/-- A file can be loaded if and only if its sections are such that it can. -/
theorem loadable_iff : Loadable sections (layout_sections c sections) ↔ Mappable c sections := by
  obtain ⟨others, xs, us, phs, hlaid⟩ := layout_spec hwf
  constructor
  · intro hloadable
    obtain ⟨k_page, hpage⟩ := hwf.page
    have hpos : 0 < c.s_align.toNat := by
      rw [hpage]
      positivity
    exact {
      tls := hlaid.not_tls hloadable
      pages := fun _ _ _ hsplit hheader hnot => hlaid.pages_in_step hloadable hsplit hheader hnot
      headers_fit := fun _ _ _ hsplit hsize hone => hlaid.headers_in_page hloadable hpos hsplit hsize hone
      ends := fun _ _ _ _ _ hsplit hnobits hsize hsame => hlaid.unfilled_at_ends hloadable hsplit hnobits hsize hsame }
  · intro hmappable
    exact {
      every := fun _ _ hs => hlaid.every_section hs
      disjoint := hlaid.sections_disjoint
      aligned := fun _ he halloc => hlaid.sections_aligned he halloc
      one_segment := fun _ hx halloc hsize => hlaid.in_one_segment hmappable hx halloc hsize
      mapped := fun _ hx _ hph halloc hsize htype hmemory =>
        hlaid.mapped_from_file hmappable hx hph halloc hsize htype hmemory
      congruent := fun _ hph htype => hlaid.segments_congruent hmappable hph htype
      written := fun e_type e_entry _ hdata => written_spec hwf hlaid e_type e_entry hdata }

end

/-- A library with a section of contents behind one that has none and cannot be written. -/
def library : Config where
  output_format := .ELF
  output_dyn := true
  text_addr := none
  section_align := 0#32
  special := ⟨none, none, none, none, none, none⟩
  note := none
  dynamic := none
  roinf := true

def section_of (name : String) (sh_type : Nat) (sh_flags : BitVec 32) (sh_size : BitVec 64) : Section where
  name := chars name
  sh_name := 1#32
  sh_type := sh_type
  sh_flags := sh_flags
  sh_info := 0#32
  sh_addralign := 8#32
  sh_entsize := 0#32
  sh_size := sh_size
  sh_addr := 0#64
  sh_offset := 0#64
  link := none

def data_and_bss : List Section :=
  [section_of ".data" SHT_PROGBITS (SHF_ALLOC ||| SHF_WRITE) 8#64,
    section_of ".bss" SHT_NOBITS (SHF_ALLOC ||| SHF_WRITE) 16#64,
    section_of ".shstrtab" SHT_STRTAB 0#32 24#64]

def bss_before_data : List Section :=
  [section_of ".rbss" SHT_NOBITS SHF_ALLOC 8#64, section_of ".data" SHT_PROGBITS (SHF_ALLOC ||| SHF_WRITE) 8#64,
    section_of ".shstrtab" SHT_STRTAB 0#32 24#64]

theorem wellFormed_of_library {sections : List Section} (haligned : ∀ s ∈ sections, s.sh_addralign = 8#32 ∧ s.sh_name ≠ 0#32)
    (hmemory : 0 + headers library sections + (sections.map fun s => s.size + s.align + 0x1000).sum < 2 ^ 64)
    (hfile : headers library sections + (sections.map fun s => s.filled + s.align).sum < 2 ^ 31) :
    WellFormed library sections where
  elf := rfl
  page := ⟨12, rfl⟩
  aligned := fun s hs => ⟨3, by omega, by rw [(haligned s hs).1]; rfl⟩
  named := fun s hs _ => (haligned s hs).2
  special := by
    intro num hnum
    cases hnum
  memory := hmemory
  file := hfile

theorem mappable_data_and_bss : Mappable library data_and_bss := by
  have hall : allocated library data_and_bss =
      [⟨1, section_of ".data" SHT_PROGBITS (SHF_ALLOC ||| SHF_WRITE) 8#64, 259#32⟩,
        ⟨2, section_of ".bss" SHT_NOBITS (SHF_ALLOC ||| SHF_WRITE) 16#64, 3#32⟩] := rfl
  refine ⟨fun e he _ => ?_, fun p h q hsplit hheader _ => ?_, fun _ _ _ _ _ _ => ?_, fun p d q e r hsplit hnobits _ => ?_⟩
  · rw [hall] at he
    simp only [List.mem_cons, List.not_mem_nil, or_false] at he
    rcases he with rfl | rfl <;> decide
  · rw [hall] at hsplit
    cases p with
    | nil => exact Dvd.intro 0 rfl
    | cons x p =>
      cases p with
      | nil =>
        cases hsplit
        exact absurd hheader (by decide)
      | cons y p => cases p <;> cases hsplit
  · show headers library data_and_bss < 0x1000
    decide
  · rw [hall] at hsplit
    cases p with
    | nil =>
      obtain ⟨rfl, -⟩ := List.cons.inj hsplit
      exact absurd hnobits (by decide)
    | cons x p =>
      have hlength := congrArg List.length hsplit
      simp only [List.length_cons, List.length_append, List.length_nil] at hlength
      omega

/-- The usual sections are loaded. -/
theorem loadable_data_and_bss : Loadable data_and_bss (layout_sections library data_and_bss) := by
  have hwf : WellFormed library data_and_bss := by
    refine wellFormed_of_library ?_ (by decide) (by decide)
    simp only [data_and_bss, List.forall_mem_cons]
    exact ⟨⟨rfl, by decide⟩, ⟨rfl, by decide⟩, ⟨rfl, by decide⟩, by simp⟩
  exact (loadable_iff hwf).mpr mappable_data_and_bss

/-- Behind a section that is not in the file the second segment is not in step with the pages. -/
theorem not_congruent_behind_bss : ¬∀ (c : Config) (sections : List Section), WellFormed c sections →
    Loadable sections (layout_sections c sections) := by
  intro hall
  have hwf : WellFormed library bss_before_data := by
    refine wellFormed_of_library ?_ (by decide) (by decide)
    simp only [bss_before_data, List.forall_mem_cons]
    exact ⟨⟨rfl, by decide⟩, ⟨rfl, by decide⟩, ⟨rfl, by decide⟩, by simp⟩
  obtain ⟨ph, hph, htype, hcongr⟩ : ∃ ph, (layout_sections library bss_before_data).phdrs[1]? = some ph ∧
      ph.p_type = PT_LOAD ∧ ph.p_vaddr.toNat % ph.p_align.toNat ≠ ph.p_offset.toNat % ph.p_align.toNat :=
    ⟨_, rfl, rfl, by decide⟩
  exact hcongr ((hall library bss_before_data hwf).congruent ph (List.mem_of_getElem? hph) htype)

end tcc.output
