import Mathlib.Algebra.Order.Group.Nat
import Tcc.Pp.TinySteps

/-! `tal_realloc` and `tal_free` with blocks in use: new arenas, new blocks, and the copies of old ones. -/

open machine.heap machine.wordbytes

namespace tcc.pp.tal

/-- The arenas go on, their used parts grow, and what is in these is kept. -/
structure Later (tal tal' : Tal) : Prop where
  kept : ∀ al ∈ tal.chain, ∃ al' ∈ tal'.chain, al.Same al' ∧ al.p ≤ al'.p
  regions : ∀ r ∈ tal.heap.regions, r ∈ tal'.heap.regions
  used : ∀ al ∈ tal.chain, ∀ x, al.buffer ≤ x → x < al.p → tal'.heap.mem x = tal.heap.mem x

theorem TinyAlloc.Same.rfl {al : TinyAlloc} : al.Same al := ⟨Eq.refl _, Eq.refl _, Eq.refl _, Eq.refl _⟩

theorem TinyAlloc.Same.trans {a b c : TinyAlloc} (h : a.Same b) (h' : b.Same c) : a.Same c :=
  ⟨h'.addr.trans h.addr, h'.limit.trans h.limit, h'.size.trans h.size, h'.buffer.trans h.buffer⟩

theorem Later.rfl {tal : Tal} : Later tal tal :=
  ⟨fun al hal => ⟨al, hal, .rfl, le_refl _⟩, fun _ hr => hr, fun _ _ _ _ _ => Eq.refl _⟩

theorem Later.trans {a b c : Tal} (h : Later a b) (h' : Later b c) : Later a c where
  kept al hal := by
    obtain ⟨al', hal', hsame, hp⟩ := h.kept al hal
    obtain ⟨al'', hal'', hsame', hp'⟩ := h'.kept al' hal'
    exact ⟨al'', hal'', hsame.trans hsame', hp.trans hp'⟩
  regions r hr := h'.regions r (h.regions r hr)
  used al hal x hlo hhi := by
    obtain ⟨al', hal', hsame, hp⟩ := h.kept al hal
    rw [h'.used al' hal' x (by rw [hsame.buffer]; exact hlo) (by omega), h.used al hal x hlo hhi]

section grow

variable {L : Nat} {tal : Tal} {live : List Block}

/-- The arena that `top` leads to is the first one. -/
theorem Safe.newest_eq (hs : Safe L tal live) :
    ∃ head rest bottom, tal.chain = head :: rest ∧ tal.chain.getLast? = some bottom ∧
      newest tal.chain bottom = some head := by
  obtain ⟨first, last, hfirst, hlast, hcases⟩ := hs.linked
  rw [List.head?_map] at hfirst
  rw [List.getLast?_map] at hlast
  obtain ⟨head, hhead, rfl⟩ := Option.map_eq_some_iff.mp hfirst
  obtain ⟨bottom, hbottom, rfl⟩ := Option.map_eq_some_iff.mp hlast
  obtain ⟨rest, hchain⟩ := List.head?_eq_some_iff.mp hhead
  refine ⟨head, rest, bottom, hchain, hbottom, ?_⟩
  rw [newest]
  rcases hcases with ⟨hnone, hone⟩ | htop
  · have htop : bottom.top = none := hnone
    have hrest : rest = [] := by
      rw [hchain] at hone
      simpa using hone
    rw [hchain, hrest] at hbottom
    rw [htop]
    exact hbottom.symm
  · have htop' : bottom.top = some head.addr := htop
    rw [htop', hchain]
    dsimp only
    rw [List.find?_cons_of_pos (by simp)]

/-- A new arena: no block is in it, and nothing else changes. -/
theorem Safe.grow (hs : Safe L tal live) :
    tal_grow tal = .error .no_memory ∨ ∃ grown, tal_grow tal = .ok grown ∧ Safe L grown live ∧ Later tal grown := by
  obtain ⟨head, rest, bottom, hchain, hbottom, hnewest⟩ := hs.newest_eq
  have hhead : head ∈ tal.chain := by rw [hchain]; exact List.mem_cons_self
  unfold tal_grow
  rw [hbottom]
  dsimp only
  rw [hnewest]
  dsimp only
  rcases tal_new_spec tal.heap (And.intro head.limit_dvd head.limit_lt)
    (Nat.mod_lt (head.size * 2) (by decide : 0 < 2 ^ 32)) with hnone |
      ⟨al, g, hnew, hlimit, hsize, hp, hcount, htop, happ, hinner, hregions, -, hmem⟩
  · rw [hnone]
    exact .inl rfl
  rw [hnew]
  have hdrop : (tal.chain.dropWhile fun a => a.addr ≠ head.addr) = tal.chain := by
    rw [hchain, List.dropWhile_cons_of_neg (by simp)]
  obtain ⟨pre, hsplit⟩ := List.getLast?_eq_some_iff.mp hbottom
  have hset (b : TinyAlloc) : tal.chain.set (tal.chain.length - 1) b = pre ++ [b] := by
    rw [hsplit, List.length_append, List.length_singleton, Nat.add_sub_cancel,
      List.set_append_right _ _ (le_refl _), Nat.sub_self, List.set_cons_zero]
  obtain ⟨bottom', hbottom'⟩ : ∃ bottom' : TinyAlloc, bottom' = { bottom with top := some al.addr } := ⟨_, rfl⟩
  have hsame : bottom.Same bottom' := by
    rw [hbottom']
    exact ⟨rfl, rfl, rfl, rfl⟩
  have hmember : bottom ∈ tal.chain := by rw [hsplit]; exact List.mem_append_right _ List.mem_cons_self
  have hall {P : TinyAlloc → Prop} (hfirst : P al) (hold : ∀ a ∈ tal.chain, P a) (hlast : P bottom → P bottom') :
      ∀ a ∈ al :: (pre ++ [bottom']), P a := by
    intro a ha
    rcases List.mem_cons.mp ha with rfl | ha
    · exact hfirst
    · rcases mem_replace ha with rfl | hother
      · exact hlast (hold bottom hmember)
      · exact hold a (by rw [hsplit]; exact mem_of_other hother)
  have hkept : ∀ r ∈ tal.heap.regions, r ∈ g.regions := by
    intro r hr
    rw [hregions]
    exact List.mem_cons_of_mem _ (List.mem_cons_of_mem _ hr)
  have hregion : al.region = ⟨al.buffer, head.size * 2 % 2 ^ 32⟩ := by rw [TinyAlloc.region, hsize]
  -- what is allocated is not in the new memory
  have hpreserved : ∀ r ∈ tal.heap.regions, ∀ x, r.start ≤ x → x < r.start + r.size → g.mem x = tal.heap.mem x := by
    intro r hr x hlo hhi
    obtain ⟨hheader, hbuffer⟩ := happ r hr
    rw [Region.Apart] at hheader hbuffer
    dsimp only at hheader hbuffer
    refine hmem x (by omega) (by omega)
  have hsafe : Safe L ⟨tal.chain, g⟩ live := by
    refine hs.of_mem hkept ?_
    intro b hb x hlo hhi
    obtain ⟨r, hr, ⟨hlo', hhi'⟩, -⟩ := hs.extent_allocated hb
    exact hpreserved r hr x (by omega) (by omega)
  have hapart : ∀ a ∈ tal.chain, al.Apart a := by
    intro a ha
    obtain ⟨hheader, hreg⟩ := hs.held a ha
    rw [TinyAlloc.Apart, hregion]
    exact ⟨(happ _ hheader).1, (happ _ hreg).1, (happ _ hheader).2, (happ _ hreg).2⟩
  have hempty : ∀ b ∈ live, ¬ al.is_own b.ptr := by
    intro b hb hown
    by_cases hsmall : b.size ≤ L
    · obtain ⟨a, ha, hin⟩ := hs.small b hb hsmall
      have hlo := hin.lo
      exact not_is_own_of_apart (hapart a ha) hown ⟨by omega, hin.own⟩
    · have hbig := (happ _ (hs.big b hb (by omega)).1).2
      obtain ⟨hlo, hhi⟩ := hown
      rw [Region.Apart] at hbig
      dsimp only at hbig
      omega
  refine .inr ⟨⟨al :: (pre ++ [bottom']), g⟩, ?_, ?_, ?_⟩
  · change Except.ok _ = _
    rw [hdrop, hset, hbottom']
  · refine ⟨?_, ?_, ?_, ?_, ?_, ?_, ?_, hsafe.blocks, ?_, hsafe.holds⟩
    · exact hall (hlimit.trans (hs.limit head hhead)) hsafe.limit fun h => hsame.limit.trans h
    · refine hall ?_ hsafe.held fun h => by rw [hsame.header_eq, hsame.region_eq]; exact h
      rw [hregion]
      exact ⟨by rw [hregions]; exact List.mem_cons_of_mem _ List.mem_cons_self, by rw [hregions]; exact List.mem_cons_self⟩
    · refine hall ?_ hsafe.inner fun h => by rw [hsame.header_eq, hsame.region_eq]; exact h
      rw [hregion]
      exact hinner.symm
    · refine List.pairwise_cons.mpr ⟨?_, apart_replace (hsplit ▸ hs.arenas) hsame⟩
      intro a ha
      rcases mem_replace ha with rfl | hother
      · have := hapart bottom hmember
        rw [TinyAlloc.Apart] at this ⊢
        rw [hsame.header_eq, hsame.region_eq]
        exact this
      · exact hapart a (by rw [hsplit]; exact mem_of_other hother)
    · refine ⟨al.link, bottom'.link, rfl, ?_, .inr (by rw [hbottom']; rfl)⟩
      rw [List.getLast?_map, ← List.cons_append, List.getLast?_concat]
      rfl
    · intro b hb hsmall
      obtain ⟨a, ha, hin⟩ := hsafe.small b hb hsmall
      dsimp only at ha
      rw [hsplit] at ha
      rcases mem_replace ha with rfl | hother
      · refine ⟨bottom', List.mem_cons_of_mem _ (List.mem_append_right _ List.mem_cons_self), ?_⟩
        rw [hbottom']
        exact ⟨hin.lo, hin.hi, hin.own, hin.header⟩
      · exact ⟨a, List.mem_cons_of_mem _ (mem_of_other hother), hin⟩
    · intro b hb hbig
      have hold := hsafe.big b hb hbig
      refine ⟨hold.1, hall ?_ hold.2 fun h => by rw [hsame.header_eq, hsame.region_eq]; exact h⟩
      have hnew := happ _ (hs.big b hb hbig).1
      rw [hregion]
      exact hnew
    · refine hall ?_ hsafe.counted ?_
      · rw [hcount, eq_comm, List.countP_eq_zero]
        intro b hb
        simpa using hempty b hb
      · intro h
        rw [hbottom']
        exact h
  · refine ⟨?_, hkept, ?_⟩
    · intro a ha
      rw [hsplit] at ha
      rcases mem_replace ha with rfl | hother
      · exact ⟨bottom', List.mem_cons_of_mem _ (List.mem_append_right _ List.mem_cons_self), hsame, by rw [hbottom']⟩
      · exact ⟨a, List.mem_cons_of_mem _ (mem_of_other hother), .rfl, le_refl _⟩
    · intro a ha x hlo hhi
      have hp := a.p_le
      refine hpreserved _ (hs.held a ha).2 x ?_ ?_
      · rw [TinyAlloc.region]
        exact hlo
      · rw [TinyAlloc.region]
        dsimp only
        omega

end grow

/-- No byte of a range is in the used part of an arena. -/
def Fresh (tal : Tal) (lo hi : Nat) : Prop := ∀ al ∈ tal.chain, hi ≤ al.buffer ∨ al.p ≤ lo

theorem Fresh.of_later {tal tal' : Tal} {lo hi : Nat} (hlater : Later tal tal') (hfresh : Fresh tal' lo hi) :
    Fresh tal lo hi := by
  intro al hal
  obtain ⟨al', hal', hsame, hp⟩ := hlater.kept al hal
  rcases hfresh al' hal' with h | h
  · rw [hsame.buffer] at h
    exact .inl h
  · exact .inr (hp.trans h)

/-- A new block of a size: it is in use, and it takes nothing that was used. -/
structure Allocates (L : Nat) (tal : Tal) (live : List Block) (size ret : Nat) (tal' : Tal) : Prop where
  safe : Safe L tal' (⟨ret, read tal'.heap.mem ret size⟩ :: live)
  later : Later tal tal'
  fresh : Fresh tal ret (ret + if size ≤ L then adj_size size else size)

section alloc

variable {L : Nat} {tal : Tal} {live : List Block} {size : Nat}

theorem Safe.length_pos (hs : Safe L tal live) : 0 < tal.chain.length := by
  obtain ⟨head, rest, -, hchain, -⟩ := hs.newest_eq
  rw [hchain]
  exact Nat.succ_pos _

theorem not_is_own_zero (al : TinyAlloc) : ¬ al.is_own 0 := by
  have := al.buffer_pos
  rintro ⟨hlo, -⟩
  omega

/-- A block is placed in an arena that has room. -/
theorem Safe.store_place (hs : Safe L tal live) (hsize : size ≤ L) {i : Nat} {al : TinyAlloc}
    (hal : tal.chain[i]? = some al) (hroom : al.has_room size) :
    ∃ heap, tal.heap.store al.p (bytes_of [BitVec.ofNat 32 (adj_size size)]) = .ok heap ∧
      Allocates L tal live size (al.p + sizeof_header) ⟨tal.chain.set i (al.place size hroom false), heap⟩ := by
  obtain ⟨pre, post, hsplit, hset⟩ := split_at hal
  have hmember : al ∈ tal.chain := List.mem_of_getElem? hal
  have hle := al.le_p
  have hroom' := hroom
  rw [TinyAlloc.has_room, sizeof_header] at hroom'
  have hlength : (bytes_of [BitVec.ofNat 32 (adj_size size)]).length = 4 := by
    rw [length_bytes_of, List.length_singleton]
  have hallocated : tal.heap.Allocated al.p (bytes_of [BitVec.ofNat 32 (adj_size size)]).length := by
    refine ⟨_, (hs.held al hmember).2, hle, ?_⟩
    rw [hlength, TinyAlloc.region]
    dsimp only
    omega
  obtain ⟨heap, hheap⟩ : ∃ heap : Heap, heap =
    { tal.heap with mem := write tal.heap.mem al.p (bytes_of [BitVec.ofNat 32 (adj_size size)]) } := ⟨_, rfl⟩
  have hmem : ∀ x, ¬ (al.p ≤ x ∧ x < al.p + 4) → heap.mem x = tal.heap.mem x := by
    intro x hx
    rw [hheap]
    exact write_of_not (by rw [hlength]; exact hx)
  have hregions : heap.regions = tal.heap.regions := by rw [hheap]
  have hstored : Safe L ⟨tal.chain, heap⟩ live := by
    refine hs.of_mem (fun r hr => by rw [hregions]; exact hr) ?_
    intro b hb x hlo hhi
    refine hmem x ?_
    rcases hs.extent_cases hmember hb with ⟨-, hstop, -⟩ | happ
    · omega
    · rw [Region.Apart, TinyAlloc.region] at happ
      dsimp only at happ
      omega
  have hheader : header_at heap.mem al.p = BitVec.ofNat 32 (adj_size size) := by
    rw [header_at, hheap, sizeof_header]
    dsimp only
    rw [read_write_of_length hlength, words_of_bytes_of_word]
    rfl
  rw [hsplit] at hstored
  have hplaced := hstored.place hsize hroom hheader
  refine ⟨heap, ?_, ?_, ⟨?_, ?_, ?_⟩, ?_⟩
  · rw [store_spec hallocated, hheap]
  · rw [hset]
    exact hplaced
  · intro a ha
    rw [hset]
    rw [hsplit] at ha
    rcases mem_replace ha with rfl | hother
    · exact ⟨_, List.mem_append_right _ List.mem_cons_self, ⟨rfl, rfl, rfl, rfl⟩, Nat.le_add_right _ _⟩
    · exact ⟨a, mem_of_other hother, .rfl, le_refl _⟩
  · exact fun r hr => by rw [hregions]; exact hr
  · intro a ha x hlo hhi
    refine hmem x ?_
    by_cases hsame : a = al
    · subst hsame
      omega
    · have happ := (hs.arenas.forall ha hmember hsame).2.2.2
      have hp := a.p_le
      rw [Region.Apart, TinyAlloc.region, TinyAlloc.region] at happ
      dsimp only at happ
      omega
  · intro a ha
    rw [if_pos hsize, sizeof_header]
    by_cases hsame : a = al
    · subst hsame
      exact .inr (Nat.le_add_right _ _)
    · have happ := (hs.arenas.forall ha hmember hsame).2.2.2
      have hp := a.p_le
      rw [Region.Apart, TinyAlloc.region, TinyAlloc.region] at happ
      dsimp only at happ
      omega

/-- A small block is found room for, in an arena from a number on or in a new one. -/
theorem alloc_spec {tal : Tal} (hs : Safe L tal live) (hsize : size ≤ L) {i : Nat} (hi : i < tal.chain.length) :
    tal_realloc_impl tal i 0 size = .error .no_memory ∨
      ∃ ret tal', tal_realloc_impl tal i 0 size = .ok (ret, tal') ∧ Allocates L tal live size ret tal' := by
  obtain ⟨al, hal⟩ : ∃ al, tal.chain[i]? = some al := ⟨_, List.getElem?_eq_getElem hi⟩
  have hmember : al ∈ tal.chain := List.mem_of_getElem? hal
  have hlimit : (0 = 0 ∨ al.is_own 0) ∧ size ≤ al.limit := ⟨.inl rfl, by rw [hs.limit al hmember]; exact hsize⟩
  rw [tal_realloc_impl, hal]
  dsimp only
  rw [if_pos hlimit]
  by_cases hroom : al.has_room size
  · obtain ⟨heap, hstore, hplaced⟩ := hs.store_place hsize hal hroom
    rw [dif_pos hroom, hstore]
    refine .inr ⟨_, _, ?_, hplaced⟩
    change (if al.is_own 0 then _ else _) = _
    rw [if_neg (not_is_own_zero al), decide_eq_false (not_is_own_zero al)]
  · rw [dif_neg hroom, dif_neg (not_is_own_zero al)]
    by_cases hnext : i + 1 < tal.chain.length
    · rw [dif_pos hnext]
      exact alloc_spec hs hsize hnext
    · rw [dif_neg hnext]
      rcases hs.grow with hnone | ⟨grown, hgrow, hsafe, hlater⟩
      · left
        split
        · rename_i stop hstop
          rw [hnone] at hstop
          cases hstop
          rfl
        · rename_i grown hgrow
          rw [hnone] at hgrow
          cases hgrow
      · split
        · rename_i stop hstop
          rw [hgrow] at hstop
          cases hstop
        · rename_i grown' hgrow'
          rw [hgrow] at hgrow'
          cases hgrow'
          have hanswers := tal_grow_answers hgrow
          rcases alloc_spec hsafe hsize hsafe.length_pos with hnone | ⟨ret, tal', hok, halloc⟩
          · exact .inl hnone
          · refine .inr ⟨ret, tal', hok, halloc.safe, hlater.trans halloc.later, halloc.fresh.of_later hlater⟩
termination_by (tal.heap.answers.length, tal.chain.length - i)

end alloc

end tcc.pp.tal
