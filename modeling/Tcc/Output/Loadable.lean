import Tcc.Output.Order
import Tcc.Output.File

/-! Which files can be loaded. -/

namespace tcc.output

open machine machine.placement machine.buffer tcc.obj

/-- How far the addresses are behind the offsets in the first segment. -/
def lag (c : Config) (k : Cursor) : Nat := if k.opened = 0 then c.base.toNat + k.offset - k.addr else 0

namespace SegmentPhdr

variable {c : Config} {k : Cursor} {h : Entry} {t : List Entry} {ph : Phdr}
  (hsegment : SegmentPhdr c k h t ph) (hothers : ∀ e ∈ t, ¬e.header)
  (hfirst : k.opened = 0 → k.addr ≤ c.base.toNat + k.offset)
include hsegment hothers hfirst

/-- Where a section of a segment is, compared with the header. -/
theorem addr_eq {s1 s2 : List Entry} {e : Entry} (hsplit : h :: t = s1 ++ e :: s2) :
    ((k.walk c.s_align.toNat (blocks s1)).start c.s_align.toNat e.block).addr + ph.p_offset.toNat + lag c k =
      ((k.walk c.s_align.toNat (blocks s1)).start c.s_align.toNat e.block).offset + ph.p_vaddr.toNat +
        unfilled (blocks s1) := by
  have hhead : (k.start c.s_align.toNat h.block).addr + ph.p_offset.toNat + lag c k =
      (k.start c.s_align.toNat h.block).offset + ph.p_vaddr.toNat := by
    rw [hsegment.p_offset, hsegment.p_vaddr, lag]
    split
    case isTrue hopened =>
      have hhop : k.hop c.s_align.toNat h.block = k.addr := if_neg fun hcond => hcond.2.1 hopened
      have hstart := k.start_addr_eq c.s_align.toNat h.block
      have := hfirst hopened
      omega
    case isFalse => omega
  cases s1 with
  | nil =>
    cases hsplit
    exact hhead
  | cons d s1 =>
    obtain ⟨rfl, rfl⟩ := List.cons.inj hsplit
    have hs1 : ∀ b ∈ blocks s1, ¬b.opens := by
      intro b hb
      obtain ⟨e', he', rfl⟩ := List.mem_map.mp hb
      exact hothers e' (List.mem_append_left _ he')
    have he : ¬e.block.opens := hothers e (List.mem_append_right _ List.mem_cons_self)
    have hwalk := (k.pass c.s_align.toNat h.block).walk_addr_eq c.s_align.toNat hs1
    have hstart := ((k.pass c.s_align.toNat h.block).walk c.s_align.toNat (blocks s1)).start_addr_eq
      c.s_align.toNat e.block
    rw [Cursor.hop_of_not_opens _ _ he] at hstart
    have hle := h.block.filled_le
    have hunfilled : unfilled (blocks (h :: s1)) = h.block.size - h.block.filled + unfilled (blocks s1) := by
      simp only [blocks, unfilled, List.map_cons, List.sum_cons]
    have hpass_addr : (k.pass c.s_align.toNat h.block).addr =
      (k.start c.s_align.toNat h.block).addr + h.block.size := rfl
    have hpass_offset : (k.pass c.s_align.toNat h.block).offset =
      (k.start c.s_align.toNat h.block).offset + h.block.filled := rfl
    have hwalk_cons : k.walk c.s_align.toNat (blocks (h :: s1)) =
      (k.pass c.s_align.toNat h.block).walk c.s_align.toNat (blocks s1) := rfl
    rw [hwalk_cons, hunfilled]
    omega

omit hothers hfirst in
/-- A section is in the part of the memory and of the file that the header names. -/
theorem bounds {s1 s2 : List Entry} {e : Entry} (hsplit : h :: t = s1 ++ e :: s2)
    (hbase : k.opened = 0 → c.base.toNat ≤ k.addr) :
    ph.p_vaddr.toNat ≤ ((k.walk c.s_align.toNat (blocks s1)).start c.s_align.toNat e.block).addr ∧
      ((k.walk c.s_align.toNat (blocks s1)).start c.s_align.toNat e.block).addr + e.sec.size ≤
        ph.p_vaddr.toNat + ph.p_memsz.toNat ∧
      ph.p_offset.toNat ≤ ((k.walk c.s_align.toNat (blocks s1)).start c.s_align.toNat e.block).offset ∧
      ((k.walk c.s_align.toNat (blocks s1)).start c.s_align.toNat e.block).offset + e.sec.filled +
        ((k.walk c.s_align.toNat (blocks (h :: t))).offset -
          (k.walk c.s_align.toNat (blocks (s1 ++ [e]))).offset) = ph.p_offset.toNat + ph.p_filesz.toNat := by
  have hend : k.walk c.s_align.toNat (blocks (h :: t)) =
      (k.walk c.s_align.toNat (blocks (s1 ++ [e]))).walk c.s_align.toNat (blocks s2) := by
    rw [← Cursor.walk_append, ← blocks_append, hsplit, List.append_assoc, List.singleton_append]
  have hafter : k.walk c.s_align.toNat (blocks (s1 ++ [e])) =
      (k.walk c.s_align.toNat (blocks s1)).pass c.s_align.toNat e.block := by
    rw [blocks_append, Cursor.walk_append]
    rfl
  have hle_addr := (k.walk c.s_align.toNat (blocks (s1 ++ [e]))).le_walk_addr c.s_align.toNat (blocks s2)
  have hle_offset := (k.walk c.s_align.toNat (blocks (s1 ++ [e]))).le_walk_offset c.s_align.toNat (blocks s2)
  rw [← hend] at hle_addr hle_offset
  have hfilesz := hsegment.p_filesz
  have hmemsz := hsegment.p_memsz
  have hpass_addr : (k.walk c.s_align.toNat (blocks (s1 ++ [e]))).addr =
      ((k.walk c.s_align.toNat (blocks s1)).start c.s_align.toNat e.block).addr + e.sec.size := by
    rw [hafter]
    rfl
  have hpass_offset : (k.walk c.s_align.toNat (blocks (s1 ++ [e]))).offset =
      ((k.walk c.s_align.toNat (blocks s1)).start c.s_align.toNat e.block).offset + e.sec.filled := by
    rw [hafter]
    rfl
  have hstart : ph.p_vaddr.toNat ≤ ((k.walk c.s_align.toNat (blocks s1)).start c.s_align.toNat e.block).addr ∧
      ph.p_offset.toNat ≤ ((k.walk c.s_align.toNat (blocks s1)).start c.s_align.toNat e.block).offset := by
    have hhead_addr := k.le_start_addr c.s_align.toNat h.block
    rw [hsegment.p_vaddr, hsegment.p_offset]
    cases s1 with
    | nil =>
      cases hsplit
      rw [show k.walk c.s_align.toNat (blocks []) = k from rfl]
      split
      case isTrue hopened =>
        have := hbase hopened
        omega
      case isFalse => omega
    | cons d s1 =>
      obtain ⟨rfl, -⟩ := List.cons.inj hsplit
      have hwalk : k.walk c.s_align.toNat (blocks (h :: s1)) =
        (k.pass c.s_align.toNat h.block).walk c.s_align.toNat (blocks s1) := rfl
      have hwalk_addr := (k.pass c.s_align.toNat h.block).le_walk_addr c.s_align.toNat (blocks s1)
      have hwalk_offset := (k.pass c.s_align.toNat h.block).le_walk_offset c.s_align.toNat (blocks s1)
      have hstart_addr := (k.walk c.s_align.toNat (blocks (h :: s1))).le_start_addr c.s_align.toNat e.block
      have hstart_offset := (k.walk c.s_align.toNat (blocks (h :: s1))).le_start_offset c.s_align.toNat e.block
      have hpass_addr' : (k.pass c.s_align.toNat h.block).addr =
        (k.start c.s_align.toNat h.block).addr + h.block.size := rfl
      have hpass_offset' : (k.pass c.s_align.toNat h.block).offset =
        (k.start c.s_align.toNat h.block).offset + h.block.filled := rfl
      rw [hwalk] at hstart_addr hstart_offset ⊢
      split
      case isTrue hopened =>
        have := hbase hopened
        omega
      case isFalse => omega
  omega

end SegmentPhdr

theorem unfilled_eq_zero_iff (l : List Entry) :
    unfilled (blocks l) = 0 ↔ ∀ e ∈ l, e.sec.nobits → e.sec.size = 0 := by
  induction l with
  | nil => simp [unfilled, blocks]
  | cons e l ih =>
    have hsum : unfilled (blocks (e :: l)) = e.sec.size - e.sec.filled + unfilled (blocks l) := by
      simp only [blocks, unfilled, List.map_cons, List.sum_cons]
      rfl
    rw [hsum, Nat.add_eq_zero_iff, ih, List.forall_mem_cons]
    refine and_congr_left fun _ => ?_
    unfold Section.filled
    by_cases hnobits : e.sec.nobits
    · simp [hnobits]
    · simp [hnobits]

/-- Behind a section that is not in the file there are only such sections, without padding. -/
def Unfilled (page : Nat) (k : Cursor) (l : List Entry) : Prop :=
  ∀ s1 d q e r, l = s1 ++ d :: q ++ e :: r → d.sec.nobits → d.sec.size ≠ 0 →
    e.sec.filled = 0 ∧ e.block.align ∣ (k.walk page (blocks (s1 ++ d :: q))).addr

/-- What is read at the address of a section is what is there in the file, or is not in it. -/
def SectionMapped (page : Nat) (k : Cursor) (ph : Phdr) (s1 : List Entry) (e : Entry) : Prop :=
  (¬e.sec.nobits → ((k.walk page (blocks s1)).start page e.block).addr + ph.p_offset.toNat =
      ((k.walk page (blocks s1)).start page e.block).offset + ph.p_vaddr.toNat) ∧
    (e.sec.nobits → ph.p_vaddr.toNat + ph.p_filesz.toNat ≤ ((k.walk page (blocks s1)).start page e.block).addr)

namespace SegmentPhdr

variable {c : Config} {k : Cursor} {h : Entry} {t : List Entry} {ph : Phdr}
  (hsegment : SegmentPhdr c k h t ph) (hothers : ∀ e ∈ t, ¬e.header)
  (hfirst : k.opened = 0 → k.addr ≤ c.base.toNat + k.offset) (hbase : k.opened = 0 → c.base.toNat ≤ k.addr)
include hsegment hothers hfirst hbase

theorem sectionMapped_iff {s1 s2 : List Entry} {e : Entry} (hsplit : h :: t = s1 ++ e :: s2) :
    SectionMapped c.s_align.toNat k ph s1 e ↔
      if e.sec.nobits then
        (k.walk c.s_align.toNat (blocks (h :: t))).offset -
          (k.walk c.s_align.toNat (blocks (s1 ++ [e]))).offset + lag c k ≤ unfilled (blocks s1)
      else unfilled (blocks s1) = lag c k := by
  have haddr := hsegment.addr_eq hothers hfirst hsplit
  obtain ⟨hvaddr, -, hoffset, hfilesz⟩ := hsegment.bounds hsplit hbase
  unfold SectionMapped
  by_cases hnobits : e.sec.nobits
  · have hfilled : e.sec.filled = 0 := if_pos hnobits
    rw [if_pos hnobits]
    constructor
    · rintro ⟨-, hle⟩
      have := hle hnobits
      omega
    · intro hle
      exact ⟨fun h => absurd hnobits h, fun _ => by omega⟩
  · rw [if_neg hnobits]
    constructor
    · rintro ⟨heq, -⟩
      have := heq hnobits
      omega
    · intro heq
      exact ⟨fun _ => by omega, fun h => absurd h hnobits⟩

omit hfirst hbase in
theorem offset_after_eq_iff {s1 s2 : List Entry} {d : Entry} (hsplit : h :: t = s1 ++ d :: s2) :
    (k.walk c.s_align.toNat (blocks (h :: t))).offset -
        (k.walk c.s_align.toNat (blocks (s1 ++ [d]))).offset = 0 ↔
      ∀ q e r, s2 = q ++ e :: r →
        e.sec.filled = 0 ∧ e.block.align ∣ (k.walk c.s_align.toNat (blocks (s1 ++ d :: q))).addr := by
  have hmiddle (q : List Entry) : k.walk c.s_align.toNat (blocks (s1 ++ d :: q)) =
      (k.walk c.s_align.toNat (blocks (s1 ++ [d]))).walk c.s_align.toNat (blocks q) := by
    rw [← Cursor.walk_append, ← blocks_append, List.append_assoc, List.singleton_append]
  have hs2 : ∀ b ∈ blocks s2, ¬b.opens := by
    intro b hb
    obtain ⟨e, he, rfl⟩ := List.mem_map.mp hb
    refine hothers e ?_
    cases s1 with
    | nil =>
      cases hsplit
      exact he
    | cons x s1 =>
      obtain ⟨-, rfl⟩ := List.cons.inj hsplit
      exact List.mem_append_right _ (List.mem_cons_of_mem _ he)
  have hle := (k.walk c.s_align.toNat (blocks (s1 ++ [d]))).le_walk_offset c.s_align.toNat (blocks s2)
  have hiff := (k.walk c.s_align.toNat (blocks (s1 ++ [d]))).walk_offset_eq_iff c.s_align.toNat (blocks s2) hs2
  rw [hsplit, hmiddle s2, Nat.sub_eq_zero_iff_le]
  refine ⟨fun h => ?_, fun h => (hiff.mpr fun p b r heq => ?_).le⟩
  · intro q e r heq
    rw [hmiddle q]
    exact hiff.mp (le_antisymm h hle) (blocks q) e.block (blocks r) (by rw [heq, blocks_append]; rfl)
  · obtain ⟨q, rest, rfl, rfl, hrest⟩ := List.map_eq_append_iff.mp heq
    obtain ⟨e, r, rfl, rfl, rfl⟩ := List.map_eq_cons_iff.mp hrest
    have := h q e r rfl
    rw [hmiddle q] at this
    exact this

/-- The sections of a segment are mapped if and only if the headers of the file fit in a page, where
    it is the first, and what is not in the file is at its end. -/
theorem mapped_iff : (∀ s1 e s2, h :: t = s1 ++ e :: s2 → e.sec.size ≠ 0 → SectionMapped c.s_align.toNat k ph s1 e) ↔
    ((∃ e ∈ h :: t, e.sec.size ≠ 0) → lag c k = 0) ∧ Unfilled c.s_align.toNat k (h :: t) := by
  have hsection {s1 s2 : List Entry} {e : Entry} (hsplit : h :: t = s1 ++ e :: s2) :=
    hsegment.sectionMapped_iff hothers hfirst hbase hsplit
  have hafter {s1 s2 : List Entry} {d : Entry} (hsplit : h :: t = s1 ++ d :: s2) :=
    hsegment.offset_after_eq_iff hothers hsplit
  constructor
  · intro hall
    have hlag : (∃ e ∈ h :: t, e.sec.size ≠ 0) → lag c k = 0 := by
      rintro ⟨e, he, hsize⟩
      obtain ⟨d, hd⟩ : ∃ d, (h :: t).find? (fun e => decide (e.sec.size ≠ 0)) = some d :=
        Option.isSome_iff_exists.mp (List.find?_isSome.mpr ⟨e, he, decide_eq_true hsize⟩)
      obtain ⟨hd, s1, s2, hsplit, hs1⟩ := List.find?_eq_some_iff_append.mp hd
      have hzero : unfilled (blocks s1) = 0 :=
        (unfilled_eq_zero_iff s1).mpr fun x hx _ => by simpa using hs1 x hx
      have hmapped := (hsection hsplit).mp (hall s1 d s2 hsplit (of_decide_eq_true hd))
      split at hmapped <;> omega
    refine ⟨hlag, ?_⟩
    intro s1 d q e r hsplit hnobits hsize
    -- the first section that is not in the file
    obtain ⟨d0, hd0⟩ : ∃ d0, (s1 ++ [d]).find? (fun e => decide (e.sec.nobits ∧ e.sec.size ≠ 0)) = some d0 :=
      Option.isSome_iff_exists.mp (List.find?_isSome.mpr
        ⟨d, List.mem_append_right _ List.mem_cons_self, decide_eq_true ⟨hnobits, hsize⟩⟩)
    obtain ⟨hd0, p0, q0, hsplit0, hp0⟩ := List.find?_eq_some_iff_append.mp hd0
    obtain ⟨hnobits0, hsize0⟩ := of_decide_eq_true hd0
    have hsplit' : h :: t = p0 ++ d0 :: (q0 ++ q ++ e :: r) := by
      calc h :: t = (s1 ++ [d]) ++ q ++ e :: r := by rw [hsplit]; simp
        _ = p0 ++ d0 :: (q0 ++ q ++ e :: r) := by rw [hsplit0]; simp
    have hmapped := (hsection hsplit').mp (hall p0 d0 _ hsplit' hsize0)
    have hzero : unfilled (blocks p0) = 0 := by
      refine (unfilled_eq_zero_iff p0).mpr fun x hx hxnobits => ?_
      have := hp0 x hx
      simp only [Bool.not_eq_true', decide_eq_false_iff_not, not_and, not_not] at this
      exact this hxnobits
    rw [if_pos hnobits0, hzero] at hmapped
    obtain ⟨hfilled, hdvd⟩ := (hafter hsplit').mp (by omega) (q0 ++ q) e r rfl
    refine ⟨hfilled, ?_⟩
    have heq : p0 ++ d0 :: (q0 ++ q) = s1 ++ d :: q := by
      calc p0 ++ d0 :: (q0 ++ q) = (p0 ++ d0 :: q0) ++ q := by simp
        _ = s1 ++ d :: q := by rw [← hsplit0]; simp
    rw [heq] at hdvd
    exact hdvd
  · rintro ⟨hlag, hunfilled⟩ s1 e s2 hsplit hsize
    have hlag := hlag ⟨e, by rw [hsplit]; exact List.mem_append_right _ List.mem_cons_self, hsize⟩
    rw [hsection hsplit, hlag]
    split
    case isTrue hnobits =>
      have hzero := (hafter hsplit).mpr fun q x r heq =>
        hunfilled s1 e q x r (by rw [hsplit, heq, List.append_assoc, List.cons_append]) hnobits hsize
      omega
    case isFalse hnobits =>
      refine (unfilled_eq_zero_iff s1).mpr fun d hd hdnobits => ?_
      by_contra hdsize
      obtain ⟨a, b, rfl⟩ := List.append_of_mem hd
      have hfilled : e.sec.filled = e.sec.size := if_neg hnobits
      have := (hunfilled a d b e s2 hsplit hdnobits hdsize).1
      omega

end SegmentPhdr

namespace Segments

variable {c : Config} {k : Cursor} {entries : List Entry} {phs : List Phdr}

theorem head_header (hsegments : Segments c k entries phs) : ∀ e ∈ entries.head?, e.header := by
  intro e he
  cases hsegments with
  | nil => cases he
  | cons header _ _ _ =>
    cases he
    exact header

/-- A header is that of a segment. -/
theorem exists_segment (hsegments : Segments c k entries phs) {i : Nat} {ph : Phdr} (hph : phs[i]? = some ph) :
    ∃ p h t q, entries = p ++ (h :: t ++ q) ∧ h.header ∧ (∀ e ∈ t, ¬e.header) ∧ (∀ e ∈ q.head?, e.header) ∧
      SegmentPhdr c (k.walk c.s_align.toNat (blocks p)) h t ph ∧ (p ≠ [] → ∃ e p', p = e :: p' ∧ e.header) := by
  induction hsegments generalizing i with
  | nil k => cases hph
  | @cons k h t q ph' phs header others phdr rest ih =>
    cases i with
    | zero =>
      cases hph
      exact ⟨[], h, t, q, rfl, header, others, rest.head_header, phdr, fun hne => absurd rfl hne⟩
    | succ i =>
      obtain ⟨p, h', t', q', rfl, hheader, hothers, hq', hsegment, -⟩ := ih hph
      refine ⟨h :: t ++ p, h', t', q', (List.append_assoc _ _ _).symm, hheader, hothers, hq', ?_, fun _ => ⟨h, t ++ p, rfl, header⟩⟩
      rw [blocks_append, Cursor.walk_append]
      exact hsegment

/-- A section is in a segment. -/
theorem find (hsegments : Segments c k entries phs) {p' q' : List Entry} {e : Entry}
    (hsplit : entries = p' ++ e :: q') :
    ∃ (i : Nat) (ph : Phdr) (p : List Entry) (h : Entry) (t q s1 s2 : List Entry), phs[i]? = some ph ∧
      entries = p ++ (h :: t ++ q) ∧ h.header ∧ (∀ e ∈ t, ¬e.header) ∧
      SegmentPhdr c (k.walk c.s_align.toNat (blocks p)) h t ph ∧
      h :: t = s1 ++ e :: s2 ∧ p' = p ++ s1 ∧ q' = s2 ++ q ∧ (∀ e ∈ q.head?, e.header) ∧
      (p ≠ [] → ∃ e p', p = e :: p' ∧ e.header) := by
  induction hsegments generalizing p' with
  | nil k => exact absurd hsplit (by simp)
  | @cons k h t q ph phs header others phdr rest ih =>
    have hcases : (∃ r, p' = h :: t ++ r ∧ q = r ++ e :: q') ∨ ∃ s2, h :: t = p' ++ e :: s2 ∧ q' = s2 ++ q := by
      rcases List.append_eq_append_iff.mp hsplit with ⟨r, hp', hq⟩ | ⟨r, hp', hq⟩
      · exact .inl ⟨r, hp', hq⟩
      · cases r with
        | nil => exact .inl ⟨[], by rw [hp', List.append_nil, List.append_nil], hq.symm⟩
        | cons x r =>
          obtain ⟨rfl, rfl⟩ := List.cons.inj hq
          exact .inr ⟨r, hp', rfl⟩
    rcases hcases with ⟨r, rfl, hr⟩ | ⟨s2, hin, rfl⟩
    · obtain ⟨i, ph', p, h', t', q0, s1, s2, hph, rfl, hheader, hothers, hsegment, hin, rfl, rfl, hnext, -⟩ := ih hr
      refine ⟨i + 1, ph', h :: t ++ p, h', t', q0, s1, s2, hph, (List.append_assoc _ _ _).symm, hheader, hothers, ?_,
        hin, (List.append_assoc _ _ _).symm, rfl, hnext, fun _ => ⟨h, t ++ p, rfl, header⟩⟩
      rw [blocks_append, Cursor.walk_append]
      exact hsegment
    · exact ⟨0, ph, [], h, t, q, p', s2, rfl, rfl, header, others, phdr, hin, rfl, rfl, rest.head_header,
        fun hne => absurd rfl hne⟩

theorem le_vaddr (hsegments : Segments c k entries phs) (hopened : 0 < k.opened) :
    ∀ ph ∈ phs, k.addr ≤ ph.p_vaddr.toNat := by
  induction hsegments with
  | nil k => simp
  | @cons k h t q ph phs header others phdr rest ih =>
    have hle := k.le_start_addr c.s_align.toNat h.block
    have hwalk := k.le_walk_addr c.s_align.toNat (blocks (h :: t))
    refine List.forall_mem_cons.mpr ⟨?_, fun ph' hph' => ?_⟩
    · rw [phdr.p_vaddr, if_neg hopened.ne']
      exact hle
    · exact hwalk.trans (ih (hopened.trans_le (k.le_walk_opened c.s_align.toNat _)) ph' hph')

/-- The segments are apart in memory. -/
theorem pairwise (hsegments : Segments c k entries phs) :
    phs.Pairwise fun a b => a.p_vaddr.toNat + a.p_memsz.toNat ≤ b.p_vaddr.toNat := by
  induction hsegments with
  | nil k => exact List.Pairwise.nil
  | @cons k h t q ph phs header others phdr rest ih =>
    refine List.pairwise_cons.mpr ⟨fun ph' hph' => ?_, ih⟩
    rw [phdr.p_memsz]
    exact rest.le_vaddr (k.walk_opened_pos c.s_align.toNat header (blocks t)) ph' hph'

theorem length_eq (hsegments : Segments c k entries phs) : phs.length = count_headers entries := by
  induction hsegments with
  | nil k => rfl
  | @cons k h t q ph phs header others phdr rest ih =>
    have hnone : count_headers t = 0 :=
      List.countP_eq_zero.mpr fun e he => by simpa using others e he
    have hhead : count_headers (h :: t ++ q) = count_headers (h :: t) + count_headers q := List.countP_append
    have hone : count_headers (h :: t) = count_headers t + 1 :=
      List.countP_cons_of_pos (decide_eq_true header)
    rw [List.length_cons, ih, hhead, hone, hnone]
    omega

end Segments

end tcc.output
