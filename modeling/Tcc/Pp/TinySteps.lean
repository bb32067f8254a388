import Mathlib.Data.List.Count
import Tcc.Pp.TinyBlocks

/-! What the parts of the allocator do to the arenas and to the blocks in use. -/

open machine.heap machine.wordbytes

namespace tcc.pp.tal

theorem split_at {α : Type} {l : List α} {i : Nat} {a : α} (hi : l[i]? = some a) :
    ∃ pre post, l = pre ++ a :: post ∧ ∀ b, l.set i b = pre ++ b :: post := by
  obtain ⟨hlt, rfl⟩ := List.getElem?_eq_some_iff.mp hi
  refine ⟨l.take i, l.drop (i + 1), ?_, fun b => ?_⟩
  · rw [List.getElem_cons_drop, List.take_append_drop]
  · rw [List.set_eq_take_append_cons_drop, if_pos hlt]

section steps

variable {L : Nat} {pre post : List TinyAlloc} {al al' : TinyAlloc} {heap : Heap} {live live' : List Block}

theorem mem_replace {a : TinyAlloc} (ha : a ∈ pre ++ al' :: post) : a = al' ∨ a ∈ pre ∨ a ∈ post := by
  rcases List.mem_append.mp ha with h | h
  · exact .inr (.inl h)
  · rcases List.mem_cons.mp h with h | h
    · exact .inl h
    · exact .inr (.inr h)

theorem mem_of_other {a : TinyAlloc} (ha : a ∈ pre ∨ a ∈ post) : a ∈ pre ++ al :: post := by
  rcases ha with h | h
  · exact List.mem_append_left _ h
  · exact List.mem_append_right _ (List.mem_cons_of_mem _ h)

theorem TinyAlloc.Same.header_eq (hsame : al.Same al') : al'.header = al.header := by
  rw [TinyAlloc.header, TinyAlloc.header, hsame.addr]

theorem TinyAlloc.Same.region_eq (hsame : al.Same al') : al'.region = al.region := by
  rw [TinyAlloc.region, TinyAlloc.region, hsame.buffer, hsame.size]

theorem apart_replace (harenas : (pre ++ al :: post).Pairwise TinyAlloc.Apart) (hsame : al.Same al') :
    (pre ++ al' :: post).Pairwise TinyAlloc.Apart := by
  have hleft : ∀ a, TinyAlloc.Apart a al' ↔ TinyAlloc.Apart a al := fun a => by
    rw [TinyAlloc.Apart, TinyAlloc.Apart, hsame.header_eq, hsame.region_eq]
  have hright : ∀ a, TinyAlloc.Apart al' a ↔ TinyAlloc.Apart al a := fun a => by
    rw [TinyAlloc.Apart, TinyAlloc.Apart, hsame.header_eq, hsame.region_eq]
  simp only [List.pairwise_append, List.pairwise_cons, List.mem_cons, forall_eq_or_imp] at harenas ⊢
  simp only [hleft, hright]
  exact harenas

/-- An arena changes, but not its memory, and with it the blocks in use. -/
theorem Safe.replace (hs : Safe L ⟨pre ++ al :: post, heap⟩ live) (hsame : al.Same al') (htop : al'.top = al.top)
    (hsmall : ∀ b ∈ live', b.size ≤ L → ∃ a ∈ pre ++ al' :: post, InArena heap.mem a b)
    (hbig : ∀ b ∈ live', L < b.size → b ∈ live)
    (hblocks : live'.Pairwise fun b b' => (extent L b).Apart (extent L b'))
    (hcounted : ∀ a ∈ pre ++ al' :: post, a.nb_allocs = live'.countP fun b => a.is_own b.ptr)
    (hholds : ∀ b ∈ live', read heap.mem b.ptr b.size = b.data) :
    Safe L ⟨pre ++ al' :: post, heap⟩ live' := by
  have hal : al ∈ pre ++ al :: post := List.mem_append_right _ List.mem_cons_self
  have hheader := hsame.header_eq
  have hregion := hsame.region_eq
  have hall {P : TinyAlloc → Prop} (hold : ∀ a ∈ pre ++ al :: post, P a) (hnew : P al → P al') :
      ∀ a ∈ pre ++ al' :: post, P a := by
    intro a ha
    rcases mem_replace ha with rfl | hother
    · exact hnew (hold al hal)
    · exact hold a (mem_of_other hother)
  refine ⟨?_, ?_, ?_, ?_, ?_, hsmall, ?_, hblocks, hcounted, hholds⟩
  · exact hall hs.limit fun h => hsame.limit.trans h
  · exact hall hs.held fun h => by rw [hheader, hregion]; exact h
  · exact hall hs.inner fun h => by rw [hheader, hregion]; exact h
  · exact apart_replace hs.arenas hsame
  · have hlink : al'.link = al.link := by rw [TinyAlloc.link, TinyAlloc.link, hsame.addr, htop]
    have hlinked := hs.linked
    simp only [List.map_append, List.map_cons, hlink] at hlinked ⊢
    exact hlinked
  · intro b hb hsize
    have hold := hs.big b (hbig b hb hsize) hsize
    refine ⟨hold.1, hall hold.2 fun h => ?_⟩
    rw [hheader, hregion]
    exact h

/-- The other arenas have other memory. -/
theorem Safe.apart_other (hs : Safe L ⟨pre ++ al :: post, heap⟩ live) {a : TinyAlloc} (ha : a ∈ pre ∨ a ∈ post) :
    al.Apart a := by
  have harenas := hs.arenas
  simp only [List.pairwise_append, List.pairwise_cons, List.mem_cons, forall_eq_or_imp] at harenas
  obtain ⟨-, ⟨hpost, -⟩, hpre⟩ := harenas
  rcases ha with h | h
  · exact (hpre a h).1.symm
  · exact hpost a h

theorem not_is_own_of_apart {a : TinyAlloc} (happ : al.Apart a) {x : Nat} (hown : al.is_own x) : ¬ a.is_own x := by
  rintro ⟨hlo, hhi⟩
  obtain ⟨hlo', hhi'⟩ := hown
  have hregions := happ.2.2.2
  rw [Region.Apart, TinyAlloc.region, TinyAlloc.region] at hregions
  dsimp only at hregions
  omega

/-- A block is placed behind the used part of an arena. -/
theorem Safe.place (hs : Safe L ⟨pre ++ al :: post, heap⟩ live) {size : Nat} (hsize : size ≤ L)
    (hroom : al.has_room size) (hheader : header_at heap.mem al.p = BitVec.ofNat 32 (adj_size size)) :
    Safe L ⟨pre ++ al.place size hroom false :: post, heap⟩
      (⟨al.p + sizeof_header, read heap.mem (al.p + sizeof_header) size⟩ :: live) := by
  obtain ⟨b, hb⟩ : ∃ b : Block, b = ⟨al.p + sizeof_header, read heap.mem (al.p + sizeof_header) size⟩ := ⟨_, rfl⟩
  have hptr : b.ptr = al.p + 4 := by rw [hb, sizeof_header]
  have hbsize : b.size = size := by rw [hb, Block.size, length_read]
  have hal : al ∈ pre ++ al :: post := List.mem_append_right _ List.mem_cons_self
  have hle := al.le_p
  have hlimits := hs.limit_spec
  have hroom' := hroom
  rw [TinyAlloc.has_room, sizeof_header] at hroom'
  have hown : al.is_own b.ptr := ⟨by omega, by omega⟩
  rw [← hb]
  refine hs.replace ⟨rfl, rfl, rfl, rfl⟩ rfl ?_ ?_ ?_ ?_ ?_
  · intro b' hb' hsize'
    rcases List.mem_cons.mp hb' with rfl | hold
    · refine ⟨_, List.mem_append_right _ List.mem_cons_self, ?_, ?_, hown.2, ?_⟩
      · rw [hptr, sizeof_header]
        exact Nat.add_le_add_right hle 4
      · rw [hptr, hbsize]
        change al.p + 4 + adj_size size ≤ al.p + (adj_size size + 4)
        omega
      · rw [hptr, hbsize, sizeof_header, Nat.add_sub_cancel]
        exact hheader
    · obtain ⟨a, ha, hin⟩ := hs.small b' hold hsize'
      rcases mem_replace ha with rfl | hother
      · exact ⟨_, List.mem_append_right _ List.mem_cons_self, hin.lo, Nat.le_add_right_of_le hin.hi, hin.own, hin.header⟩
      · exact ⟨a, mem_of_other hother, hin⟩
  · intro b' hb' hsize'
    rcases List.mem_cons.mp hb' with rfl | hold
    · omega
    · exact hold
  · rw [List.pairwise_cons]
    refine ⟨?_, hs.blocks⟩
    intro b' hb'
    have hnew : extent L b = ⟨al.p, 4 + adj_size size⟩ := by
      rw [extent_small (by omega), hptr, hbsize, sizeof_header, Nat.add_sub_cancel]
    rw [hnew]
    rcases hs.extent_cases hal hb' with ⟨-, hhi, hpos⟩ | happ
    · rw [Region.Apart]
      dsimp only
      omega
    · refine (happ.symm.of_covers (by omega) ⟨hle, ?_⟩).symm
      rw [TinyAlloc.region]
      dsimp only
      omega
  · intro a ha
    rcases mem_replace ha with rfl | hother
    · rw [List.countP_cons_of_pos (by exact decide_eq_true hown)]
      exact congrArg (· + 1) (hs.counted al hal)
    · rw [List.countP_cons_of_neg (by simpa using not_is_own_of_apart (hs.apart_other hother) hown)]
      exact hs.counted a (mem_of_other hother)
  · intro b' hb'
    rcases List.mem_cons.mp hb' with rfl | hold
    · rw [hbsize, hb]
    · exact hs.holds b' hold

/-- A block of an arena is given up. The used part may be forgotten with the last block. -/
theorem Safe.give_up (hs : Safe L ⟨pre ++ al :: post, heap⟩ live) {b : Block} (hb : b ∈ live)
    (hown : al.is_own b.ptr) (hsame : al.Same al') (htop : al'.top = al.top)
    (hcount : al'.nb_allocs = al.nb_allocs - 1) (hp : al'.p = al.p ∨ al'.nb_allocs = 0) :
    0 < al.nb_allocs ∧ Safe L ⟨pre ++ al' :: post, heap⟩ (live.erase b) := by
  have hal : al ∈ pre ++ al :: post := List.mem_append_right _ List.mem_cons_self
  have hpos : 0 < al.nb_allocs := by
    rw [hs.counted al hal, List.countP_pos_iff]
    exact ⟨b, hb, decide_eq_true hown⟩
  have hown' (x : Nat) : al'.is_own x ↔ al.is_own x := by
    rw [TinyAlloc.is_own, TinyAlloc.is_own, hsame.buffer, hsame.size]
  have hcounted : al'.nb_allocs = (live.erase b).countP fun b => al'.is_own b.ptr := by
    simp only [hown']
    rw [List.countP_erase, if_pos ⟨hb, decide_eq_true hown⟩, ← hs.counted al hal, hcount]
  refine ⟨hpos, hs.replace hsame htop ?_ ?_ ?_ ?_ ?_⟩
  · intro b' hb' hsize
    obtain ⟨a, ha, hin⟩ := hs.small b' (List.mem_of_mem_erase hb') hsize
    rcases mem_replace ha with rfl | hother
    · refine ⟨_, List.mem_append_right _ List.mem_cons_self, ?_, ?_, ?_, hin.header⟩
      · rw [hsame.buffer]
        exact hin.lo
      · rcases hp with hp | hnone
        · rw [hp]
          exact hin.hi
        · rw [hnone, eq_comm, List.countP_eq_zero] at hcounted
          refine absurd ?_ (hcounted b' hb')
          rw [decide_eq_true_eq, hown']
          exact ⟨(Nat.le_add_right _ _).trans hin.lo, hin.own⟩
      · rw [hsame.buffer, hsame.size]
        exact hin.own
    · exact ⟨a, mem_of_other hother, hin⟩
  · exact fun b' hb' _ => List.mem_of_mem_erase hb'
  · exact hs.blocks.sublist List.erase_sublist
  · intro a ha
    rcases mem_replace ha with rfl | hother
    · exact hcounted
    · rw [List.countP_erase, if_neg, Nat.sub_zero]
      · exact hs.counted a (mem_of_other hother)
      · rintro ⟨-, hcontra⟩
        exact not_is_own_of_apart (hs.apart_other hother) hown (of_decide_eq_true hcontra)
  · exact fun b' hb' => hs.holds b' (List.mem_of_mem_erase hb')

end steps

section heap

variable {L : Nat} {chain : List TinyAlloc} {heap heap' : Heap} {live : List Block} {b : Block}

/-- The bytes of a block that its user may write; a small block is filled up to whole words. -/
def payload (L : Nat) (b : Block) : Nat := if b.size ≤ L then adj_size b.size else b.size

/-- What a block covers was allocated. -/
theorem Safe.extent_allocated (hs : Safe L ⟨chain, heap⟩ live) (hb : b ∈ live) :
    ∃ r ∈ heap.regions, r.Covers (extent L b).start (extent L b).size ∧ 0 < (extent L b).size := by
  by_cases hsize : b.size ≤ L
  · obtain ⟨al, hal, hin⟩ := hs.small b hb hsize
    obtain ⟨hlo, hhi, -, -⟩ := hin
    have hp := al.p_le
    rw [sizeof_header] at hlo
    refine ⟨al.region, (hs.held al hal).2, ⟨?_, ?_⟩, ?_⟩
    · rw [extent_small hsize, TinyAlloc.region, sizeof_header]
      dsimp only
      omega
    · rw [extent_small hsize, TinyAlloc.region, sizeof_header]
      dsimp only
      omega
    · rw [extent_small hsize, sizeof_header]
      dsimp only
      omega
  · rw [extent_big (by omega)]
    exact ⟨_, (hs.big b hb (by omega)).1, ⟨le_refl _, le_refl _⟩, by dsimp only; omega⟩

theorem Safe.extent_eq (hs : Safe L ⟨chain, heap⟩ live) (hb : b ∈ live) :
    (extent L b).start ≤ b.ptr ∧ (extent L b).start + (extent L b).size = b.ptr + payload L b ∧
      b.size ≤ payload L b := by
  by_cases hsize : b.size ≤ L
  · have hle := hs.header_le hb hsize
    obtain ⟨hdvd, hlt⟩ := hs.limit_spec
    have hadj := (adj_size_spec hdvd hlt hsize).1
    rw [extent_small hsize, payload, if_pos hsize]
    dsimp only
    omega
  · rw [extent_big (by omega), payload, if_neg hsize]
    exact ⟨le_refl _, rfl, le_refl _⟩

/-- The user of a block writes to it. -/
theorem Safe.refill (hs : Safe L ⟨chain, heap⟩ (b :: live)) (hregions : ∀ r ∈ heap.regions, r ∈ heap'.regions)
    (hmem : ∀ x, ¬ (b.ptr ≤ x ∧ x < b.ptr + payload L b) → heap'.mem x = heap.mem x) :
    Safe L ⟨chain, heap'⟩ (⟨b.ptr, read heap'.mem b.ptr b.size⟩ :: live) := by
  obtain ⟨c, hc⟩ : ∃ c : Block, c = ⟨b.ptr, read heap'.mem b.ptr b.size⟩ := ⟨_, rfl⟩
  have hptr : c.ptr = b.ptr := by rw [hc]
  have hsize : c.size = b.size := by rw [hc, Block.size, length_read]
  have hextent : extent L c = extent L b := by rw [extent, extent, hptr, hsize]
  obtain ⟨hstart, hstop, -⟩ := hs.extent_eq List.mem_cons_self
  have hothers : ∀ b' ∈ live, ∀ x, (extent L b').start ≤ x → x < (extent L b').start + (extent L b').size →
      heap'.mem x = heap.mem x := by
    intro b' hb' x hlo hhi
    have happ := (List.pairwise_cons.mp hs.blocks).1 b' hb'
    rw [Region.Apart] at happ
    exact hmem x (by omega)
  have hheader : ∀ al, InArena heap.mem al b → InArena heap'.mem al c := by
    rintro al ⟨hlo, hhi, hown, hheader⟩
    refine ⟨hptr ▸ hlo, ?_, hptr ▸ hown, ?_⟩
    · rw [hptr, hsize]
      exact hhi
    · rw [hptr, hsize, ← hheader, header_at, header_at, read_congr]
      intro x hx hx'
      exact hmem x (by omega)
  rw [← hc]
  refine ⟨hs.limit, fun al hal => ⟨hregions _ (hs.held al hal).1, hregions _ (hs.held al hal).2⟩, hs.inner,
    hs.arenas, hs.linked, ?_, ?_, ?_, ?_, ?_⟩
  · intro b' hb' hsmall
    rcases List.mem_cons.mp hb' with rfl | hold
    · obtain ⟨al, hal, hin⟩ := hs.small b List.mem_cons_self (hsize ▸ hsmall)
      exact ⟨al, hal, hheader al hin⟩
    · obtain ⟨al, hal, hin⟩ := hs.small b' (List.mem_cons_of_mem _ hold) hsmall
      refine ⟨al, hal, hin.lo, hin.hi, hin.own, ?_⟩
      have hsame := hothers b' hold
      rw [extent_small hsmall] at hsame
      have := hin.lo
      rw [← hin.header, header_at, header_at, read_congr]
      intro x hx hx'
      exact hsame x hx (by dsimp only; omega)
  · intro b' hb' hbig
    rcases List.mem_cons.mp hb' with rfl | hold
    · have hold := hs.big b List.mem_cons_self (hsize ▸ hbig)
      rw [hptr, hsize]
      exact ⟨hregions _ hold.1, hold.2⟩
    · have hold := hs.big b' (List.mem_cons_of_mem _ hold) hbig
      exact ⟨hregions _ hold.1, hold.2⟩
  · have hblocks := hs.blocks
    rw [List.pairwise_cons] at hblocks ⊢
    rw [hextent]
    exact hblocks
  · intro al hal
    have hcount := hs.counted al hal
    rw [List.countP_cons] at hcount ⊢
    rw [hptr]
    exact hcount
  · intro b' hb'
    rcases List.mem_cons.mp hb' with rfl | hold
    · rw [hsize, hc]
    · rw [← hs.holds b' (List.mem_cons_of_mem _ hold)]
      obtain ⟨hstart', hstop', hle⟩ := hs.extent_eq (List.mem_cons_of_mem _ hold)
      refine read_congr fun x hx hx' => hothers b' hold x (by omega) (by omega)

/-- A block of its own region. -/
theorem Safe.add_big (hs : Safe L ⟨chain, heap⟩ live) {a n : Nat} (hn : L < n)
    (hregions : heap'.regions = ⟨a, n⟩ :: heap.regions) (happ : ∀ r ∈ heap.regions, Region.Apart ⟨a, n⟩ r)
    (hmem : ∀ x, ¬ (a ≤ x ∧ x < a + n) → heap'.mem x = heap.mem x) :
    Safe L ⟨chain, heap'⟩ (⟨a, read heap'.mem a n⟩ :: live) := by
  obtain ⟨b, hb⟩ : ∃ b : Block, b = ⟨a, read heap'.mem a n⟩ := ⟨_, rfl⟩
  have hptr : b.ptr = a := by rw [hb]
  have hsize : b.size = n := by rw [hb, Block.size, length_read]
  have hextent : ∀ b' ∈ live, Region.Apart ⟨a, n⟩ (extent L b') := by
    intro b' hb'
    obtain ⟨r, hr, hcovers, hpos⟩ := hs.extent_allocated hb'
    exact (happ r hr).of_covers hpos hcovers
  have hold : Safe L ⟨chain, heap'⟩ live := by
    refine hs.of_mem (fun r hr => by rw [hregions]; exact List.mem_cons_of_mem _ hr) ?_
    intro b' hb' x hlo hhi
    have happ := hextent b' hb'
    rw [Region.Apart] at happ
    dsimp only at happ
    exact hmem x (by omega)
  rw [← hb]
  refine ⟨hold.limit, hold.held, hold.inner, hold.arenas, hold.linked, ?_, ?_, ?_, ?_, ?_⟩
  · intro b' hb' hsmall
    rcases List.mem_cons.mp hb' with rfl | hmem'
    · omega
    · exact hold.small b' hmem' hsmall
  · intro b' hb' hbig
    rcases List.mem_cons.mp hb' with rfl | hmem'
    · rw [hptr, hsize]
      refine ⟨by rw [hregions]; exact List.mem_cons_self, fun al hal => ?_⟩
      exact ⟨(happ _ (hs.held al hal).1).symm, (happ _ (hs.held al hal).2).symm⟩
    · exact hold.big b' hmem' hbig
  · rw [List.pairwise_cons]
    refine ⟨?_, hold.blocks⟩
    rw [extent_big (by omega), hptr, hsize]
    exact hextent
  · intro al hal
    have hapart := happ _ (hs.held al hal).2
    rw [List.countP_cons_of_neg]
    · exact hold.counted al hal
    · rw [hptr, decide_eq_true_eq]
      rintro ⟨hlo, hhi⟩
      rw [Region.Apart, TinyAlloc.region] at hapart
      dsimp only at hapart
      omega
  · intro b' hb'
    rcases List.mem_cons.mp hb' with rfl | hmem'
    · rw [hsize, hb]
    · exact hold.holds b' hmem'

/-- A block of its own region is given back. -/
theorem Safe.free_big (hs : Safe L ⟨chain, heap⟩ live) (hb : b ∈ live) (hbig : L < b.size)
    (hregions : heap'.regions = heap.regions.erase ⟨b.ptr, b.size⟩) (hmem : heap'.mem = heap.mem) :
    Safe L ⟨chain, heap'⟩ (live.erase b) := by
  have hkept : ∀ r ∈ heap.regions, r ≠ ⟨b.ptr, b.size⟩ → r ∈ heap'.regions := by
    intro r hr hne
    rw [hregions]
    exact (List.mem_erase_of_ne hne).mpr hr
  have hapart := (hs.big b hb hbig).2
  have hnotown : ∀ al ∈ chain, ¬ al.is_own b.ptr := by
    rintro al hal ⟨hlo, hhi⟩
    have happ := (hapart al hal).2
    rw [Region.Apart, TinyAlloc.region] at happ
    dsimp only at happ
    omega
  refine ⟨hs.limit, ?_, hs.inner, hs.arenas, hs.linked, ?_, ?_, hs.blocks.sublist List.erase_sublist, ?_, ?_⟩
  · intro al hal
    exact ⟨hkept _ (hs.held al hal).1 (hapart al hal).1.ne, hkept _ (hs.held al hal).2 (hapart al hal).2.ne⟩
  · intro b' hb' hsmall
    obtain ⟨al, hal, hin⟩ := hs.small b' (List.mem_of_mem_erase hb') hsmall
    refine ⟨al, hal, ?_⟩
    dsimp only
    rw [hmem]
    exact hin
  · intro b' hb' hbig'
    obtain ⟨hregion, hapart'⟩ := hs.big b' (List.mem_of_mem_erase hb') hbig'
    refine ⟨hkept _ hregion ?_, hapart'⟩
    have hperm := List.perm_cons_erase hb
    have happ := (List.pairwise_cons.mp (hs.perm hperm).blocks).1 b' hb'
    rw [extent_big hbig, extent_big hbig'] at happ
    exact happ.symm.ne
  · intro al hal
    rw [List.countP_erase, if_neg, Nat.sub_zero]
    · exact hs.counted al hal
    · rintro ⟨-, hcontra⟩
      exact hnotown al hal (of_decide_eq_true hcontra)
  · intro b' hb'
    dsimp only
    rw [hmem]
    exact hs.holds b' (List.mem_of_mem_erase hb')

end heap

end tcc.pp.tal
