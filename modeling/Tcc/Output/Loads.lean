import Mathlib.Data.List.ReduceOption
import Tcc.Output.Loadable

/-! The files that can be loaded are those where what is not in the file is at the ends of the
    segments, and the segments stay in step with the pages. -/

namespace tcc.output

open machine machine.placement machine.buffer tcc.obj

/-- A section with its place. -/
def Entry.Has (e x : Entry) : Prop :=
  x = { e with sec.sh_offset := x.sec.sh_offset, sec.sh_addr := x.sec.sh_addr }

theorem Entry.Has.filled {e x : Entry} (h : e.Has x) : x.sec.filled = e.sec.filled := by
  rw [h]
  rfl

theorem PlacedAt.has {page : Nat} {k : Cursor} {e x : Entry} (h : PlacedAt page k e x) : e.Has x := h.eq

theorem PlacedFrom.cons {page : Nat} {k : Cursor} {e : Entry} {entries xs : List Entry}
    (h : PlacedFrom page k (e :: entries) xs) :
    ∃ x rest, xs = x :: rest ∧ PlacedAt page k e x ∧ PlacedFrom page (k.pass page e.block) entries rest := by
  obtain ⟨hlength, hall⟩ := h
  obtain ⟨x, hx, hplaced⟩ := hall [] e entries rfl
  cases xs with
  | nil => cases hx
  | cons y rest =>
    cases hx
    exact ⟨x, rest, rfl, hplaced, Nat.succ.inj hlength, fun p d q heq => hall (e :: p) d q (by rw [heq]; rfl)⟩

/-- The sections are in the file in the order of the cursor. -/
theorem PlacedFrom.inFile {page : Nat} {k : Cursor} {entries xs : List Entry} (h : PlacedFrom page k entries xs) :
    InFile k.offset xs (k.walk page (blocks entries)).offset := by
  induction entries generalizing k xs with
  | nil =>
    obtain rfl := List.eq_nil_of_length_eq_zero h.1
    exact le_rfl
  | cons e entries ih =>
    obtain ⟨x, rest, rfl, hplaced, hrest⟩ := h.cons
    have hoffset : x.offset = (k.start page e.block).offset := hplaced.offset
    refine ⟨hoffset ▸ k.le_start_offset page e.block, ?_⟩
    rw [hplaced.has.filled, hoffset]
    exact ih hrest

/-- And in memory. -/
theorem PlacedFrom.pairwise {page : Nat} {k : Cursor} {entries xs : List Entry} (h : PlacedFrom page k entries xs) :
    (∀ x ∈ xs, k.addr ≤ x.sec.sh_addr.toNat) ∧
      xs.Pairwise fun x y => x.sec.sh_addr.toNat + x.sec.size ≤ y.sec.sh_addr.toNat := by
  induction entries generalizing k xs with
  | nil =>
    obtain rfl := List.eq_nil_of_length_eq_zero h.1
    exact ⟨by simp, List.Pairwise.nil⟩
  | cons e entries ih =>
    obtain ⟨x, rest, rfl, hplaced, hrest⟩ := h.cons
    obtain ⟨hle, hpairwise⟩ := ih hrest
    have haddr := hplaced.addr
    have hstart := k.le_start_addr page e.block
    have hpass : (k.pass page e.block).addr = (k.start page e.block).addr + x.sec.size := by
      rw [hplaced.has]
      rfl
    refine ⟨List.forall_mem_cons.mpr ⟨by omega, fun y hy => ?_⟩, List.pairwise_cons.mpr ⟨fun y hy => ?_, hpairwise⟩⟩
    · have := hle y hy
      omega
    · have := hle y hy
      omega

theorem PlacedFrom.exists_entry {page : Nat} {k : Cursor} {entries xs : List Entry} (h : PlacedFrom page k entries xs)
    {x : Entry} (hx : x ∈ xs) :
    ∃ p e q, entries = p ++ e :: q ∧ PlacedAt page (k.walk page (blocks p)) e x := by
  obtain ⟨i, hi, rfl⟩ := List.mem_iff_getElem.mp hx
  have hlt : i < entries.length := h.1 ▸ hi
  have hsplit : entries = entries.take i ++ entries[i] :: entries.drop (i + 1) := by
    rw [List.getElem_cons_drop, List.take_append_drop]
  obtain ⟨x, hx', hplaced⟩ := h.2 _ _ _ hsplit
  rw [List.length_take, Nat.min_eq_left hlt.le, List.getElem?_eq_getElem hi] at hx'
  cases hx'
  exact ⟨_, _, _, hsplit, hplaced⟩

/-- The sections that are not in memory go behind the others. -/
theorem run_others {c : Config} {others : List Entry} (hzero : ∀ e ∈ others, e.f = 0#32)
    (haligned : ∀ e ∈ others, e.sec.Aligned) {st : Lay}
    (hfile : st.file_offset.toNat + file_room (blocks others) < 2 ^ 31) :
    (others.foldl (layout_section c) st).loads = st.loads ∧
      (others.foldl (layout_section c) st).file_offset.toNat < 2 ^ 31 ∧
      ∃ us, (others.foldl (layout_section c) st).placed = st.placed ++ us ∧
        InFile st.file_offset.toNat us (others.foldl (layout_section c) st).file_offset.toNat ∧
        (∀ e ∈ others, ∃ x ∈ us, e.Has x) ∧ ∀ x ∈ us, ∃ e ∈ others, e.Has x := by
  induction others generalizing st with
  | nil => exact ⟨rfl, hfile, [], (List.append_nil _).symm, le_rfl, by simp, by simp⟩
  | cons e others ih =>
    have he := haligned e List.mem_cons_self
    have hroom : file_room (blocks (e :: others)) = e.sec.filled + e.sec.align + file_room (blocks others) := by
      simp only [blocks, file_room, List.map_cons, List.sum_cons, block_align he]
      rfl
    have hstep : layout_section c st e = layout_unallocated st e := if_pos (hzero e List.mem_cons_self)
    have hsign : (st.file_offset.signExtend 64).toNat = st.file_offset.toNat := toNat_signExtend_of_lt (by omega)
    have hpos := he.align_pos
    have halign := he.toNat_align_to (x := st.file_offset.signExtend 64) (by omega)
    have hlt := align_up_lt e.block st.file_offset.toNat
    have hle := le_align_up e.block st.file_offset.toNat
    rw [block_align he] at hlt hle
    rw [hsign] at halign
    have hoffset : ((align_to (st.file_offset.signExtend 64) e.sec.mask).setWidth 32).toNat =
        align_up e.sec.align st.file_offset.toNat := by
      rw [BitVec.toNat_setWidth, halign]
      omega
    have hsign' := toNat_signExtend_of_lt
      (x := (align_to (st.file_offset.signExtend 64) e.sec.mask).setWidth 32) (by omega)
    have hend : (layout_unallocated st e).file_offset.toNat =
        align_up e.sec.align st.file_offset.toNat + e.sec.filled := by
      unfold layout_unallocated Section.filled
      dsimp only
      by_cases hnobits : e.sec.nobits
      · rw [if_pos hnobits, if_pos hnobits, hoffset, Nat.add_zero]
      · have hfilled : e.sec.filled = e.sec.sh_size.toNat := if_neg hnobits
        have hsize : e.sec.size = e.sec.sh_size.toNat := rfl
        rw [if_neg hnobits, if_neg hnobits, BitVec.toNat_setWidth, BitVec.toNat_add, hsign', hoffset, hsize]
        omega
    obtain ⟨hloads, hlast, us, hplaced, hin, hfrom, hto⟩ := ih (fun d hd => hzero d (List.mem_cons_of_mem _ hd))
      (fun d hd => haligned d (List.mem_cons_of_mem _ hd))
      (show (layout_unallocated st e).file_offset.toNat + file_room (blocks others) < 2 ^ 31 by omega)
    have hhas : e.Has { e with sec.sh_offset :=
        ((align_to (st.file_offset.signExtend 64) e.sec.mask).setWidth 32).signExtend 64 } := rfl
    rw [List.foldl_cons, hstep]
    refine ⟨hloads, hlast, _ :: us, by rw [hplaced]; exact List.append_assoc _ _ _, ⟨?_, ?_⟩,
      List.forall_mem_cons.mpr ⟨⟨_, List.mem_cons_self, hhas⟩, fun d hd => ?_⟩,
      List.forall_mem_cons.mpr ⟨⟨e, List.mem_cons_self, hhas⟩, fun x hx => ?_⟩⟩
    · show _ ≤ (BitVec.signExtend 64 _).toNat
      rw [hsign', hoffset]
      exact hle
    · refine hin.mono (le_of_eq ?_)
      rw [hend, ← hoffset, ← hsign']
      rfl
    · obtain ⟨x, hx, hhas⟩ := hfrom d hd
      exact ⟨x, List.mem_cons_of_mem _ hx, hhas⟩
    · obtain ⟨d, hd, hhas⟩ := hto x hx
      exact ⟨d, List.mem_cons_of_mem _ hd, hhas⟩

/-- The size of the headers at the start of the file. -/
def headers (c : Config) (sections : List Section) : Nat :=
  EHDR_SIZE + c.phnum (sort_sections c.special sections) * PHDR_SIZE

def start_cursor (c : Config) (sections : List Section) : Cursor :=
  ⟨c.base.toNat + headers c sections % c.s_align.toNat, headers c sections, 0⟩

/-- The sections in memory, in the order of the file. -/
def allocated (c : Config) (sections : List Section) : List Entry :=
  (sort_sections c.special sections).filter fun e => e.sec.alloc

/-- The sections that an executable or a library is made of; the file has less than 2 GiB, and the
    addresses do not wrap. -/
structure WellFormed (c : Config) (sections : List Section) : Prop where
  elf : c.output_format = .ELF
  page : ∃ n, c.s_align.toNat = 2 ^ n
  aligned : ∀ s ∈ sections, s.Aligned
  named : ∀ s ∈ sections, s.sh_size ≠ 0#64 → s.sh_name ≠ 0#32
  special : ∀ num ∈ [c.special.interp, c.note, c.dynamic].reduceOption, 0 < num ∧ num ≤ sections.length
  memory : c.base.toNat + headers c sections +
    (sections.map fun s => s.size + s.align + c.s_align.toNat).sum < 2 ^ 64
  file : headers c sections + (sections.map fun s => s.filled + s.align).sum < 2 ^ 31

/-- What the layout of sections is made of. -/
structure Laid (c : Config) (sections : List Section) (others xs us : List Entry) (phs : List Phdr) : Prop where
  sorted : sort_sections c.special sections = allocated c sections ++ others
  marked : Marked 0#32 (allocated c sections)
  alloc : ∀ e ∈ allocated c sections, e.sec.alloc
  others_alloc : ∀ e ∈ others, ¬e.sec.alloc
  perm : ((sort_sections c.special sections).map fun e => (e.num, e.sec)).Perm
    (sections.mapIdx fun k s => (k + 1, s))
  fits : Fits c (start_cursor c sections) (allocated c sections)
  entries : (layout_sections c sections).entries = xs ++ us
  placed : PlacedFrom c.s_align.toNat (start_cursor c sections) (allocated c sections) xs
  others_to : ∀ e ∈ others, ∃ x ∈ us, e.Has x
  others_from : ∀ x ∈ us, ∃ e ∈ others, e.Has x
  segments : Segments c (start_cursor c sections) (allocated c sections) phs
  phdrs : ∃ first other, (layout_sections c sections).phdrs = first ++ phs ++ other ∧
    (∀ ph ∈ first ++ other, ph.p_type ≠ PT_LOAD)
  in_file : ∃ hi < 2 ^ 31, InFile (headers c sections) (layout_sections c sections).entries hi ∧
    (layout_sections c sections).file_offset.toNat = hi
  length_phdrs : (layout_sections c sections).phdrs.length = c.phnum (sort_sections c.special sections)

theorem blocks_room (page : Nat) (entries : List Entry) (haligned : ∀ e ∈ entries, e.sec.Aligned) :
    room page (blocks entries) = (entries.map fun e => e.sec.size + e.sec.align + page).sum ∧
      file_room (blocks entries) = (entries.map fun e => e.sec.filled + e.sec.align).sum := by
  have hmap (f : Entry → Nat) (g : Block → Nat) (hfg : ∀ e ∈ entries, g e.block = f e) :
      ((blocks entries).map g).sum = (entries.map f).sum := by
    rw [blocks, List.map_map]
    exact congrArg List.sum (List.map_congr_left hfg)
  refine ⟨hmap _ _ fun e he => ?_, hmap _ _ fun e he => ?_⟩
  · rw [block_align (haligned e he)]
    rfl
  · rw [block_align (haligned e he)]
    rfl

theorem section_phdr_type {placed : List Entry} {p_type : BitVec 32} {num : Option Nat} :
    ∀ ph ∈ section_phdr placed p_type num, ph.p_type = p_type := by
  intro ph hph
  unfold section_phdr at hph
  split at hph
  · rw [List.mem_singleton.mp hph]
    rfl
  · cases hph

theorem length_section_phdr {placed : List Entry} (p_type : BitVec 32) {num : Option Nat}
    (hfound : ∀ n ∈ num, ∃ x ∈ placed, x.num = n) :
    (section_phdr placed p_type num).length = if num.isSome then 1 else 0 := by
  unfold section_phdr
  cases num with
  | none => rfl
  | some n =>
    obtain ⟨x, hx, hnum⟩ := hfound n rfl
    obtain ⟨y, hy⟩ : ∃ y, placed.find? (fun e => decide (e.num = n)) = some y :=
      Option.isSome_iff_exists.mp (List.find?_isSome.mpr ⟨x, hx, decide_eq_true hnum⟩)
    simp only [Option.bind_some, hy]
    rfl

theorem toNat_layout_start {c : Config} {sections : List Section} (hwf : WellFormed c sections) :
    At (layout_start c (sort_sections c.special sections)) (start_cursor c sections) := by
  obtain ⟨n, hn⟩ := hwf.page
  have hpos : 0 < 2 ^ n := by positivity
  have hfile := hwf.file
  have hmemory := hwf.memory
  have hsize : (c.headers_size (c.phnum (sort_sections c.special sections))).toNat = headers c sections := by
    rw [Config.headers_size, if_pos hwf.elf, BitVec.toNat_ofNat]
    refine Nat.mod_eq_of_lt ?_
    show headers c sections < _
    omega
  have hsub : (c.s_align - 1#64).toNat = 2 ^ n - 1 := by
    rw [BitVec.toNat_sub_of_le (by rw [BitVec.le_def, hn]; exact hpos), hn]
    rfl
  have hmod := Nat.mod_le (headers c sections) (2 ^ n)
  refine ⟨?_, hsize, rfl, ?_⟩
  · simp only [layout_start, start_cursor]
    rw [BitVec.toNat_add, BitVec.toNat_and, hsub, Nat.and_two_pow_sub_one_eq_mod,
      toNat_signExtend_of_lt (by omega), hsize, hn]
    omega
  · show headers c sections < _
    omega

theorem first_phdrs_type {c : Config} {phnum : Nat} {st : Lay} : ∀ ph ∈ first_phdrs c phnum st, ph.p_type ≠ PT_LOAD := by
  intro ph hph
  unfold first_phdrs at hph
  split at hph
  · rcases List.mem_cons.mp hph with rfl | hph
    · show PT_PHDR ≠ PT_LOAD
      decide
    · rw [section_phdr_type ph hph]
      decide
  · cases hph

theorem other_phdrs_type {c : Config} {st : Lay} : ∀ ph ∈ other_phdrs c st, ph.p_type ≠ PT_LOAD := by
  intro ph hph
  rcases List.mem_append.mp hph with hph | hph
  · rcases List.mem_append.mp hph with hph | hph
    · rw [section_phdr_type ph hph]
      decide
    · obtain ⟨ph', hph', rfl⟩ := List.mem_map.mp hph
      show ph'.p_type ≠ PT_LOAD
      rw [section_phdr_type ph' hph']
      decide
  · split at hph
    · rw [List.mem_singleton.mp hph]
      show PT_GNU_RELRO ≠ PT_LOAD
      decide
    · cases hph

/-- The layout of well-formed sections. -/
theorem layout_spec {c : Config} {sections : List Section} (hwf : WellFormed c sections) :
    ∃ others xs us phs, Laid c sections others xs us phs := by
  obtain ⟨alloc, others, hsort, halloc, hothers, hmarked, hperm⟩ := sort_sections_spec c.special sections
  have hallocated : allocated c sections = alloc := by
    rw [allocated, hsort, List.filter_append, List.filter_eq_self.mpr fun e he => decide_eq_true (halloc e he).2,
      List.filter_eq_nil_iff.mpr fun e he => by simpa using (hothers e he).2, List.append_nil]
  have hmem : ∀ e ∈ alloc ++ others, e.sec ∈ sections := by
    intro e he
    have := hperm.mem_iff.mp (List.mem_map.mpr ⟨e, he, rfl⟩)
    obtain ⟨k, hk, heq⟩ := List.mem_mapIdx.mp this
    rw [← (Prod.mk.inj heq).2]
    exact List.getElem_mem hk
  have haligned : ∀ e ∈ alloc ++ others, e.sec.Aligned := fun e he => hwf.aligned _ (hmem e he)
  have hsum (f : Section → Nat) : ((alloc ++ others).map fun e => f e.sec).sum = (sections.map f).sum := by
    have h := (hperm.map fun p => f p.2).sum_eq
    rw [List.map_map] at h
    refine h.trans (congrArg List.sum ?_)
    exact List.ext_getElem (by simp) fun i _ _ => by simp
  obtain ⟨hroom, hfile_room⟩ := blocks_room c.s_align.toNat (alloc ++ others) haligned
  rw [hsum fun s => s.size + s.align + c.s_align.toNat, blocks_append, room_append] at hroom
  rw [hsum fun s => s.filled + s.align, blocks_append, file_room_append] at hfile_room
  have hmod := Nat.mod_le (headers c sections) c.s_align.toNat
  have hmemory := hwf.memory
  have hfile := hwf.file
  have hfits : Fits c (start_cursor c sections) alloc :=
    ⟨hwf.elf, hwf.page, fun e he => (halloc e he).1, fun e he => haligned e (List.mem_append_left _ he),
      by simp only [start_cursor]; omega, by simp only [start_cursor]; omega⟩
  have hat := toNat_layout_start hwf
  obtain ⟨hat', xs, hplaced, hxs⟩ := run_allocated hfits hat
  have hfirst : ∀ e ∈ alloc.head?, e.header := by
    intro e he
    cases alloc with
    | nil => cases he
    | cons d alloc =>
      obtain rfl : d = e := Option.some.inj he
      by_contra hheader
      have hzero : d.kind = 0#32 := hmarked.1 hheader
      have hkind : d.kind = d.f := and_not_eq_self (not_ne_iff.mp hheader)
      exact (halloc d List.mem_cons_self).1 (hkind.symm.trans hzero)
  obtain ⟨phs, hloads, hsegments⟩ := segments_spec hfits hat (Nat.le_add_right _ _) hfirst
  have hoffset := hat'.offset
  have hwalk := (start_cursor c sections).walk_offset_le c.s_align.toNat (blocks alloc)
  have hstart : (start_cursor c sections).offset = headers c sections := rfl
  obtain ⟨hloads', hlast, us, hus, hin, hto, hfrom⟩ := run_others (fun e he => (hothers e he).1)
    (fun e he => haligned e (List.mem_append_right _ he))
    (show (alloc.foldl (layout_section c) (layout_start c (sort_sections c.special sections))).file_offset.toNat +
      file_room (blocks others) < 2 ^ 31 by omega)
  have hrun : layout_run c (sort_sections c.special sections) = others.foldl (layout_section c)
      (alloc.foldl (layout_section c) (layout_start c (sort_sections c.special sections))) := by
    rw [layout_run, ← List.foldl_append, ← hsort]
  rw [← hrun] at hloads' hlast hus hin
  have hentries : (layout_sections c sections).entries = xs ++ us := by
    show (layout_run c (sort_sections c.special sections)).placed = xs ++ us
    rw [hus, hplaced]
    rfl
  have hphdrs : (layout_sections c sections).phdrs =
      first_phdrs c (c.phnum (sort_sections c.special sections)) (layout_run c (sort_sections c.special sections)) ++
        phs ++ other_phdrs c (layout_run c (sort_sections c.special sections)) := by
    have hall : (layout_run c (sort_sections c.special sections)).loads = phs := by
      rw [hloads', hloads]
      rfl
    rw [← hall]
    rfl
  -- a section that is named by its number is there
  have hfound : ∀ num, 0 < num ∧ num ≤ sections.length →
      ∃ x ∈ (layout_run c (sort_sections c.special sections)).placed, x.num = num := by
    rintro num ⟨hpos, hle⟩
    have hin_sections : (num, sections[num - 1]) ∈ sections.mapIdx fun k s => (k + 1, s) :=
      List.mem_mapIdx.mpr ⟨num - 1, by omega, by rw [Nat.sub_add_cancel hpos]⟩
    obtain ⟨e, he, heq⟩ := List.mem_map.mp (hperm.mem_iff.mpr hin_sections)
    have hnum : e.num = num := (Prod.mk.inj heq).1
    have hplaced' : (layout_run c (sort_sections c.special sections)).placed = xs ++ us := hentries
    rw [hplaced']
    rcases List.mem_append.mp he with he | he
    · obtain ⟨p, q, rfl⟩ := List.append_of_mem he
      obtain ⟨x, hx, hat⟩ := hxs.2 p e q rfl
      exact ⟨x, List.mem_append_left _ (List.mem_of_getElem? hx), by rw [hat.has]; exact hnum⟩
    · obtain ⟨x, hx, hhas⟩ := hto e he
      exact ⟨x, List.mem_append_right _ hx, by rw [hhas]; exact hnum⟩
  have hspecial : ∀ num : Option Nat, num ∈ [c.special.interp, c.note, c.dynamic] → ∀ n ∈ num,
      ∃ x ∈ (layout_run c (sort_sections c.special sections)).placed, x.num = n := by
    intro num hnum n hn
    refine hfound n (hwf.special n ?_)
    rw [List.reduceOption_mem_iff, ← Option.mem_def.mp hn]
    exact hnum
  have hcount : count_headers (sort_sections c.special sections) = phs.length := by
    have hnone : count_headers others = 0 := List.countP_eq_zero.mpr fun e he => by
      simp [Entry.header, (hothers e he).1]
    have happend : count_headers (alloc ++ others) = count_headers alloc + count_headers others := List.countP_append
    rw [hsort, happend, hnone, hsegments.length_eq, Nat.add_zero]
  have hlength : (layout_sections c sections).phdrs.length = c.phnum (sort_sections c.special sections) := by
    have hinterp := length_section_phdr PT_INTERP (hspecial c.special.interp (by simp))
    have hnote := length_section_phdr PT_NOTE (hspecial c.note (by simp))
    have hdynamic := length_section_phdr PT_DYNAMIC (hspecial c.dynamic (by simp))
    rw [hphdrs, List.length_append, List.length_append, Config.phnum, hcount, Config.phfill, other_phdrs,
      List.length_append, List.length_append, List.length_map, hnote, hdynamic]
    have hfirst : ∀ phnum, (first_phdrs c phnum (layout_run c (sort_sections c.special sections))).length =
        if c.special.interp.isSome then 2 else 0 := by
      intro phnum
      unfold first_phdrs
      split
      case isTrue hsome => rw [List.length_cons, hinterp, if_pos hsome]
      case isFalse => rfl
    have hroinf : ∀ ph : Phdr, (if c.roinf then [ph] else []).length = if c.roinf then 1 else 0 := by
      intro ph
      split <;> rfl
    rw [hfirst, hroinf]
    omega
  refine ⟨others, xs, us, phs, ⟨by rw [hallocated, hsort], by rw [hallocated]; exact hmarked,
    by rw [hallocated]; exact fun e he => (halloc e he).2, fun e he => (hothers e he).2, by rw [hsort]; exact hperm,
    by rw [hallocated]; exact hfits, hentries, by rw [hallocated]; exact hxs, hto, hfrom,
    by rw [hallocated]; exact hsegments, ⟨_, _, hphdrs, ?_⟩, ⟨_, hlast, ?_, rfl⟩, hlength⟩⟩
  · intro ph hph
    rcases List.mem_append.mp hph with hph | hph
    · exact first_phdrs_type ph hph
    · exact other_phdrs_type ph hph
  · rw [hentries]
    refine hxs.inFile.append ?_
    rw [← hoffset]
    exact hin

end tcc.output
