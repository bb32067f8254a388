import Tcc.Output.Placed

/-! The sections of a file in segments, and the program headers of these. -/

namespace tcc.output

open machine machine.placement tcc.obj

def blocks (entries : List Entry) : List Block := entries.map Entry.block

theorem blocks_append (xs ys : List Entry) : blocks (xs ++ ys) = blocks xs ++ blocks ys := List.map_append

def Entry.tls (e : Entry) : Prop := e.f &&& SHF_TLS ≠ 0#32

instance (e : Entry) : Decidable e.tls := inferInstanceAs (Decidable (_ ≠ _))

/-- The headers of the segments. -/
def Lay.loads (st : Lay) : List Phdr := st.full ++ st.ph.toList

/-- What the header of a segment says: `h` is the first of its sections, `t` the others, and `k` is
    where the cursor is before them. -/
structure SegmentPhdr (c : Config) (k : Cursor) (h : Entry) (t : List Entry) (ph : Phdr) : Prop where
  p_type : ph.p_type = if h.tls then PT_TLS else PT_LOAD
  p_align : ¬h.tls → ph.p_align = c.s_align
  p_offset : ph.p_offset.toNat =
    if k.opened = 0 then 0 else (k.start c.s_align.toNat h.block).offset
  p_vaddr : ph.p_vaddr.toNat =
    if k.opened = 0 then c.base.toNat else (k.start c.s_align.toNat h.block).addr
  p_filesz : ph.p_offset.toNat + ph.p_filesz.toNat = (k.walk c.s_align.toNat (blocks (h :: t))).offset
  p_memsz : ph.p_vaddr.toNat + ph.p_memsz.toNat = (k.walk c.s_align.toNat (blocks (h :: t))).addr

/-- The sections of a file and the headers of their segments. -/
inductive Segments (c : Config) : Cursor → List Entry → List Phdr → Prop where
  | nil (k : Cursor) : Segments c k [] []
  | cons {k : Cursor} {h : Entry} {t q : List Entry} {ph : Phdr} {phs : List Phdr} (header : h.header)
      (others : ∀ e ∈ t, ¬e.header) (phdr : SegmentPhdr c k h t ph)
      (rest : Segments c (k.walk c.s_align.toNat (blocks (h :: t))) q phs) :
      Segments c k (h :: t ++ q) (ph :: phs)

/-- What a run over sections needs. -/
structure Fits (c : Config) (k : Cursor) (entries : List Entry) : Prop where
  elf : c.output_format = .ELF
  page : ∃ n, c.s_align.toNat = 2 ^ n
  allocated : ∀ e ∈ entries, e.f ≠ 0#32
  aligned : ∀ e ∈ entries, e.sec.Aligned
  memory : k.addr + room c.s_align.toNat (blocks entries) < 2 ^ 64
  file : k.offset + file_room (blocks entries) < 2 ^ 31

namespace Fits

variable {c : Config} {k : Cursor} {xs ys : List Entry}

theorem left (hfits : Fits c k (xs ++ ys)) : Fits c k xs where
  elf := hfits.elf
  page := hfits.page
  allocated := fun e he => hfits.allocated e (List.mem_append_left _ he)
  aligned := fun e he => hfits.aligned e (List.mem_append_left _ he)
  memory := by
    have := hfits.memory
    rw [blocks_append, room_append] at this
    omega
  file := by
    have := hfits.file
    rw [blocks_append, file_room_append] at this
    omega

theorem right (hfits : Fits c k (xs ++ ys)) : Fits c (k.walk c.s_align.toNat (blocks xs)) ys where
  elf := hfits.elf
  page := hfits.page
  allocated := fun e he => hfits.allocated e (List.mem_append_right _ he)
  aligned := fun e he => hfits.aligned e (List.mem_append_right _ he)
  memory := by
    have hwalk := k.walk_addr_le c.s_align.toNat (blocks xs)
    have := hfits.memory
    rw [blocks_append, room_append] at this
    omega
  file := by
    have hwalk := k.walk_offset_le c.s_align.toNat (blocks xs)
    have := hfits.file
    rw [blocks_append, file_room_append] at this
    omega

/-- One section. -/
theorem step {e : Entry} (hfits : Fits c k [e]) {st : Lay} (hat : At st k) :
    At (layout_section c st e) (k.pass c.s_align.toNat e.block) ∧
      ∃ x, (layout_section c st e).placed = st.placed ++ [x] ∧ PlacedAt c.s_align.toNat k e x := by
  have haligned := hfits.aligned e List.mem_cons_self
  obtain ⟨n, hn⟩ := hfits.page
  have hmemory := hfits.memory
  have hfile := hfits.file
  simp only [blocks, room, file_room, List.map_cons, List.map_nil, List.sum_cons, List.sum_nil,
    Nat.add_zero, block_align haligned] at hmemory hfile
  rw [layout_section, if_neg (hfits.allocated e List.mem_cons_self)]
  exact layout_allocated_spec hfits.elf hn hat haligned hmemory hfile

end Fits

/-- Every section is where the cursor goes for it. -/
def PlacedFrom (page : Nat) (k : Cursor) (entries xs : List Entry) : Prop :=
  xs.length = entries.length ∧ ∀ p e q, entries = p ++ e :: q →
    ∃ x, xs[p.length]? = some x ∧ PlacedAt page (k.walk page (blocks p)) e x

theorem run_allocated {c : Config} {st : Lay} {k : Cursor} {entries : List Entry} (hfits : Fits c k entries)
    (hat : At st k) :
    At (entries.foldl (layout_section c) st) (k.walk c.s_align.toNat (blocks entries)) ∧
      ∃ xs, (entries.foldl (layout_section c) st).placed = st.placed ++ xs ∧
        PlacedFrom c.s_align.toNat k entries xs := by
  induction entries generalizing st k with
  | nil => exact ⟨hat, [], (List.append_nil _).symm, rfl, fun p e q h => absurd h (by simp)⟩
  | cons e entries ih =>
    have hfits' : Fits c k ([e] ++ entries) := hfits
    obtain ⟨hat', x, hplaced, hx⟩ := hfits'.left.step hat
    obtain ⟨hrun, xs, hxs, hlength, hall⟩ := ih hfits'.right hat'
    refine ⟨hrun, x :: xs, ?_, congrArg Nat.succ hlength, fun p d q heq => ?_⟩
    · rw [List.foldl_cons, hxs, hplaced, List.append_assoc, List.singleton_append]
    · cases p with
      | nil =>
        cases heq
        exact ⟨x, rfl, hx⟩
      | cons y p =>
        obtain ⟨rfl, rfl⟩ := List.cons.inj heq
        exact hall p d q rfl

theorem Phdr.toNat_grow (ph : Phdr) (file_offset : BitVec 32) (addr : BitVec 64)
    (hlt : file_offset.toNat < 2 ^ 31) (hoffset : ph.p_offset.toNat ≤ file_offset.toNat)
    (haddr : ph.p_vaddr.toNat ≤ addr.toNat) :
    ph.p_offset.toNat + (ph.grow file_offset addr).p_filesz.toNat = file_offset.toNat ∧
      ph.p_vaddr.toNat + (ph.grow file_offset addr).p_memsz.toNat = addr.toNat := by
  have hsign := toNat_signExtend_of_lt hlt
  constructor
  · show _ + (file_offset.signExtend 64 - ph.p_offset).toNat = _
    rw [BitVec.toNat_sub_of_le (by rw [BitVec.le_def, hsign]; exact hoffset), hsign]
    omega
  · show _ + (addr - ph.p_vaddr).toNat = _
    rw [BitVec.toNat_sub_of_le (BitVec.le_def.mpr haddr)]
    omega

section

variable {c : Config} {st : Lay} {k : Cursor} (hat : At st k) (hbase : c.base.toNat ≤ k.addr)
include hat hbase

/-- The first section of a segment makes its header. -/
theorem header_spec {h : Entry} (hfits : Fits c k [h]) (hheader : h.header) :
    (layout_section c st h).full = st.loads ∧
      ∃ ph, (layout_section c st h).ph = some ph ∧ SegmentPhdr c k h [] ph := by
  obtain ⟨hat', x, hplaced, hx⟩ := hfits.step hat
  have hlayout : layout_section c st h = layout_allocated c st h :=
    if_neg (hfits.allocated h List.mem_cons_self)
  rw [hlayout] at hat' hplaced ⊢
  have hopened := hat.opened
  -- the offset and the address are those of the section itself
  cases (List.append_cancel_left hplaced : [_] = [x])
  have hoffset := hx.offset
  have haddr := hx.addr
  have hle_offset := k.le_start_offset c.s_align.toNat h.block
  have hle_addr := k.le_start_addr c.s_align.toNat h.block
  refine ⟨if_pos hheader, _, if_pos hheader, ?_⟩
  have hp_offset : ∀ addr, (segment_phdr c st.n h (st.file_offset +
      (align_to (page_hop c st h) (section_mask c st h) - page_hop c st h).setWidth 32) addr).p_offset.toNat =
      if k.opened = 0 then 0 else (k.start c.s_align.toNat h.block).offset := by
    intro addr
    simp only [segment_phdr, hopened]
    split
    · rfl
    · exact hoffset
  have hp_vaddr : ∀ offset, (segment_phdr c st.n h offset
      (align_to (page_hop c st h) (section_mask c st h))).p_vaddr.toNat =
      if k.opened = 0 then c.base.toNat else (k.start c.s_align.toNat h.block).addr := by
    intro offset
    simp only [segment_phdr, hopened]
    split
    · rfl
    · exact haddr
  have hend := hat'.offset
  have hend' := hat'.addr
  have hlt := hat'.offset_lt
  have hgrow := Phdr.toNat_grow (segment_phdr c st.n h (st.file_offset +
      (align_to (page_hop c st h) (section_mask c st h) - page_hop c st h).setWidth 32)
      (align_to (page_hop c st h) (section_mask c st h)))
    (layout_allocated c st h).file_offset (layout_allocated c st h).addr
    (by omega)
    (by
      rw [hp_offset, hend, Cursor.pass]
      split <;> dsimp only <;> omega)
    (by
      rw [hp_vaddr, hend', Cursor.pass]
      split <;> dsimp only <;> omega)
  exact ⟨rfl, fun htls => if_neg htls, hp_offset 0#64, hp_vaddr 0#32, hgrow.1.trans hend, hgrow.2.trans hend'⟩

/-- The others make it grow. -/
theorem segment_spec {h : Entry} {t : List Entry} (hfits : Fits c k (h :: t)) (hheader : h.header)
    (hothers : ∀ e ∈ t, ¬e.header) :
    ((h :: t).foldl (layout_section c) st).full = st.loads ∧
      ∃ ph, ((h :: t).foldl (layout_section c) st).ph = some ph ∧ SegmentPhdr c k h t ph := by
  induction t using List.reverseRecOn with
  | nil => exact header_spec hat hbase hfits hheader
  | append_singleton t e ih =>
    have hfits' : Fits c k ((h :: t) ++ [e]) := hfits
    obtain ⟨hfull, ph, hph, hsegment⟩ := ih hfits'.left fun e' he' => hothers e' (List.mem_append_left _ he')
    obtain ⟨hat', -⟩ := run_allocated hfits'.left hat
    have hstep := (hfits'.right.step hat').1
    have hnot : ¬e.header := hothers e (List.mem_append_right _ List.mem_cons_self)
    have hwalk : k.walk c.s_align.toNat (blocks (h :: (t ++ [e]))) =
        (k.walk c.s_align.toNat (blocks (h :: t))).pass c.s_align.toNat e.block := by
      rw [← List.cons_append, blocks_append, Cursor.walk_append]
      rfl
    rw [← List.cons_append, List.foldl_append, List.foldl_cons, List.foldl_nil]
    generalize (h :: t).foldl (layout_section c) st = st' at hfull hph hat' hstep ⊢
    have hlayout : layout_section c st' e = layout_allocated c st' e :=
      if_neg (hfits'.right.allocated e List.mem_cons_self)
    rw [hlayout] at hstep ⊢
    have hfilesz := hsegment.p_filesz
    have hmemsz := hsegment.p_memsz
    generalize k.walk c.s_align.toNat (blocks (h :: t)) = k' at hfilesz hmemsz hat' hstep hwalk
    have hle_offset := k'.le_pass_offset c.s_align.toNat e.block
    have hle_addr := k'.le_pass_addr c.s_align.toNat e.block
    have hend := hstep.offset
    have hend' := hstep.addr
    have hlt := hstep.offset_lt
    have hph' : (layout_allocated c st' e).ph =
        some (ph.grow (layout_allocated c st' e).file_offset (layout_allocated c st' e).addr) := by
      have hgrow : (layout_allocated c st' e).ph = st'.ph.map
          (·.grow (layout_allocated c st' e).file_offset (layout_allocated c st' e).addr) := if_neg hnot
      rw [hgrow, hph]
      rfl
    refine ⟨(if_neg hnot).trans hfull, _, hph', ?_⟩
    have hgrow := Phdr.toNat_grow ph (layout_allocated c st' e).file_offset
      (layout_allocated c st' e).addr (by omega) (by omega) (by omega)
    exact ⟨hsegment.p_type, hsegment.p_align, hsegment.p_offset, hsegment.p_vaddr,
      by rw [hwalk]; exact hgrow.1.trans hend, by rw [hwalk]; exact hgrow.2.trans hend'⟩

end

/-- A run makes a header for each of the segments. -/
theorem segments_spec {c : Config} {st : Lay} {k : Cursor} {entries : List Entry} (hfits : Fits c k entries)
    (hat : At st k) (hbase : c.base.toNat ≤ k.addr) (hfirst : ∀ e ∈ entries.head?, e.header) :
    ∃ phs, (entries.foldl (layout_section c) st).loads = st.loads ++ phs ∧ Segments c k entries phs := by
  induction hn : entries.length using Nat.strongRecOn generalizing st k entries with
  | ind n ih =>
    cases entries with
    | nil => exact ⟨[], (List.append_nil _).symm, .nil k⟩
    | cons h rest =>
      have hheader : h.header := hfirst h rfl
      have hsplit : h :: rest = h :: rest.takeWhile (fun e => !e.header) ++ rest.dropWhile (fun e => !e.header) := by
        rw [List.cons_append, List.takeWhile_append_dropWhile]
      have hothers : ∀ e ∈ rest.takeWhile (fun e => !e.header), ¬e.header := by
        intro e he
        simpa using List.mem_takeWhile_imp he
      have hnext : ∀ e ∈ (rest.dropWhile (fun e => !e.header)).head?, e.header := by
        intro e he
        have := List.head?_dropWhile_not (fun e : Entry => !e.header) rest
        rw [Option.mem_def.mp he] at this
        simpa using this
      have hlt : (rest.dropWhile (fun e => !e.header)).length < n := by
        rw [← hn]
        exact Nat.lt_succ_of_le (List.dropWhile_sublist _).length_le
      rw [hsplit] at hfits ⊢
      obtain ⟨hfull, ph, hph, hsegment⟩ := segment_spec hat hbase hfits.left hheader hothers
      obtain ⟨hat', -⟩ := run_allocated hfits.left hat
      have hle := k.le_walk_addr c.s_align.toNat (blocks (h :: rest.takeWhile (fun e => !e.header)))
      obtain ⟨phs, hphs, hsegments⟩ := ih _ hlt hfits.right hat' (by omega) hnext rfl
      refine ⟨ph :: phs, ?_, .cons hheader hothers hsegment hsegments⟩
      rw [List.foldl_append, hphs, Lay.loads, hfull, hph, List.append_assoc]
      rfl

end tcc.output
