import Tcc.Pp.TinyRealloc

/-! What `tal_realloc` and `tal_free` do with a block in use. -/

open machine.heap machine.wordbytes

namespace tcc.pp.tal

section copy

variable {L : Nat} {tal tal' : Tal} {live : List Block} {size ret : Nat} {al : TinyAlloc} {b : Block}

theorem adj_size_mono {m n : Nat} (hdvd : 4 ∣ L) (hlt : L < 2 ^ 32) (hn : n ≤ L) (hle : m ≤ n) :
    adj_size m ≤ adj_size n := by
  rw [(adj_size_spec hdvd hlt hn).2.2, (adj_size_spec hdvd hlt (hle.trans hn)).2.2]
  omega

/-- The old bytes of an arena are copied to a new block. -/
theorem Allocates.copy_block (halloc : Allocates L tal live size ret tal') (hs : Safe L tal live)
    (hal : al ∈ tal.chain) (hsmall : b.size ≤ L) (hin : InArena tal.heap.mem al b) (hsize : b.size ≤ size)
    (hholds : read tal.heap.mem b.ptr b.size = b.data) :
    ∃ heap, copy_block tal'.heap ret b.ptr = .ok heap ∧ Allocates L tal live size ret ⟨tal'.chain, heap⟩ ∧
      b.data <+: read heap.mem ret size := by
  obtain ⟨hsafe, hlater, hfresh⟩ := halloc
  obtain ⟨hlo, hhi, hown, hheader⟩ := hin
  obtain ⟨hdvd, hlt⟩ := hs.limit_spec
  obtain ⟨hadj, hadjL, -⟩ := adj_size_spec hdvd hlt hsmall
  have hp := al.p_le
  obtain ⟨c, hc⟩ : ∃ c : Block, c = ⟨ret, read tal'.heap.mem ret size⟩ := ⟨_, rfl⟩
  have hcsize : c.size = size := by rw [hc, Block.size, length_read]
  have hcptr : c.ptr = ret := by rw [hc]
  rw [← hc] at hsafe
  have hpayload : payload L c = if size ≤ L then adj_size size else size := by rw [payload, hcsize]
  have hroom : adj_size b.size ≤ payload L c := by
    rw [hpayload]
    split
    · rename_i hle
      exact adj_size_mono hdvd hlt hle hsize
    · omega
  rw [sizeof_header] at hlo
  have hused : ∀ x, al.buffer ≤ x → x < al.p → tal'.heap.mem x = tal.heap.mem x := hlater.used al hal
  have hregion : al.region ∈ tal'.heap.regions := hlater.regions _ (hs.held al hal).2
  have hsource : tal'.heap.Allocated (b.ptr - sizeof_header) sizeof_header := by
    refine ⟨_, hregion, ?_, ?_⟩
    · rw [TinyAlloc.region, sizeof_header]
      dsimp only
      omega
    · rw [TinyAlloc.region, sizeof_header]
      dsimp only
      omega
  have hbytes : tal'.heap.Allocated b.ptr (adj_size b.size) := by
    refine ⟨_, hregion, ?_, ?_⟩
    · rw [TinyAlloc.region]
      dsimp only
      omega
    · rw [TinyAlloc.region]
      dsimp only
      omega
  have htarget : tal'.heap.Allocated ret (adj_size b.size) := by
    obtain ⟨r, hr, ⟨hstart, hstop⟩, -⟩ := @Safe.extent_allocated L tal'.chain tal'.heap _ c hsafe List.mem_cons_self
    obtain ⟨hstart', hstop', -⟩ := @Safe.extent_eq L tal'.chain tal'.heap _ c hsafe List.mem_cons_self
    exact ⟨r, hr, by omega, by omega⟩
  have hfrom : ret + payload L c ≤ al.buffer ∨ al.p ≤ ret := by
    rw [hpayload]
    exact hfresh al hal
  have hword : ((words_of (read tal'.heap.mem (b.ptr - sizeof_header) sizeof_header)).headD 0).toNat =
      adj_size b.size := by
    have hsame : read tal'.heap.mem (b.ptr - sizeof_header) sizeof_header =
        read tal.heap.mem (b.ptr - sizeof_header) sizeof_header := by
      refine read_congr fun x hx hx' => hused x ?_ ?_
      · rw [sizeof_header] at hx
        omega
      · rw [sizeof_header] at hx'
        omega
    rw [hsame]
    change (header_at tal.heap.mem (b.ptr - sizeof_header)).toNat = _
    rw [hheader, BitVec.toNat_ofNat, Nat.mod_eq_of_lt (by omega)]
  obtain ⟨heap, hheap⟩ : ∃ heap : Heap, heap =
    { tal'.heap with mem := write tal'.heap.mem ret (read tal'.heap.mem b.ptr (adj_size b.size)) } := ⟨_, rfl⟩
  have hmem : ∀ x, ¬ (ret ≤ x ∧ x < ret + payload L c) → heap.mem x = tal'.heap.mem x := by
    intro x hx
    rw [hheap]
    refine write_of_not ?_
    rw [length_read]
    omega
  have hregions : heap.regions = tal'.heap.regions := by rw [hheap]
  refine ⟨heap, ?_, ⟨?_, ⟨hlater.kept, ?_, ?_⟩, hfresh⟩, ?_⟩
  · rw [tal.copy_block, load_spec hsource]
    change tal'.heap.memcpy ret b.ptr _ = _
    rw [hword, memcpy_spec htarget hbytes (by omega), hheap]
  · have hrefill := @Safe.refill L tal'.chain tal'.heap heap live c hsafe (fun r hr => by rw [hregions]; exact hr)
      (by rw [hcptr]; exact hmem)
    rw [hcptr, hcsize] at hrefill
    exact hrefill
  · exact fun r hr => by rw [hregions]; exact hlater.regions r hr
  · intro a ha x hxlo hxhi
    have hother := hfresh a ha
    rw [← hpayload] at hother
    rw [hmem x (by omega), hlater.used a ha x hxlo hxhi]
  · rw [List.prefix_iff_eq_take]
    have hcopied : read heap.mem ret (adj_size b.size) = read tal'.heap.mem b.ptr (adj_size b.size) := by
      rw [hheap]
      exact read_write_of_length length_read
    have hlength : b.data.length ≤ size := hsize
    rw [read_take hlength]
    change b.data = read heap.mem ret b.size
    rw [← read_take hadj, hcopied, read_take hadj, ← hholds]
    refine (read_congr fun x hx hx' => ?_).symm
    exact hused x (by omega) (by omega)

end copy

/-- A call that succeeds: the new block is in use, and the arenas go on with their used parts. -/
structure Reallocates (L : Nat) (tal : Tal) (live : List Block) (size ret : Nat) (tal' : Tal) : Prop where
  safe : Safe L tal' (⟨ret, read tal'.heap.mem ret size⟩ :: live)
  kept : ∀ al ∈ tal.chain, ∃ al' ∈ tal'.chain, al.Same al' ∧ al.p ≤ al'.p

section realloc

variable {L : Nat} {tal : Tal} {live : List Block} {size : Nat} {b : Block}

/-- An arena that has nothing to do with the call is passed. -/
theorem tal_realloc_impl_next {i p : Nat} {al : TinyAlloc} (hal : tal.chain[i]? = some al) (hown : ¬ al.is_own p)
    (hpass : p ≠ 0 ∨ al.limit < size) (hnext : i + 1 < tal.chain.length) :
    tal_realloc_impl tal i p size = tal_realloc_impl tal (i + 1) p size := by
  rw [tal_realloc_impl, hal]
  dsimp only
  rw [if_neg, if_neg hown, dif_pos hnext]
  rintro ⟨hp | hp, hle⟩
  · omega
  · exact hown hp

/-- The arenas before the one that is looked for are passed. -/
theorem tal_realloc_impl_walk {p k : Nat} (hpass : ∀ al ∈ tal.chain, p ≠ 0 ∨ al.limit < size)
    (hown : ∀ j < k, ∀ al, tal.chain[j]? = some al → ¬ al.is_own p) (hk : k < tal.chain.length) :
    tal_realloc_impl tal 0 p size = tal_realloc_impl tal k p size := by
  induction k with
  | zero => rfl
  | succ k ih =>
    have hlt : k < tal.chain.length := by omega
    rw [ih (fun j hj => hown j (by omega)) hlt]
    have hal := List.getElem?_eq_getElem hlt
    exact tal_realloc_impl_next hal (hown k (by omega) _ hal) (hpass _ (List.getElem_mem hlt)) hk

/-- No arena has to do with the call: it goes to the heap. -/
theorem tal_realloc_last (hs : Safe L tal live) {p : Nat} (hpass : ∀ al ∈ tal.chain, p ≠ 0 ∨ al.limit < size)
    (hown : ∀ al ∈ tal.chain, ¬ al.is_own p) :
    tal_realloc tal p size = (do
      let (ret, heap) ← if p = 0 then tal.heap.malloc size else tal.heap.realloc p size
      .ok (ret, ⟨tal.chain, heap⟩)) := by
  have hlength := hs.length_pos
  have hlt : tal.chain.length - 1 < tal.chain.length := by omega
  have hal := List.getElem?_eq_getElem hlt
  have hmember := List.getElem_mem hlt
  rw [tal_realloc, tal_realloc_impl_walk hpass (fun j _ al hal => hown al (List.mem_of_getElem? hal)) hlt,
    tal_realloc_impl, hal]
  dsimp only
  rw [if_neg, if_neg (hown _ hmember), dif_neg (by omega)]
  rintro ⟨hp | hp, hle⟩
  · rcases hpass _ hmember with h | h
    · exact h hp
    · omega
  · exact hown _ hmember hp

/-- A block of its own region. -/
theorem Safe.malloc_big (hs : Safe L tal live) (hbig : L < size) :
    tal.heap.malloc size = .error .no_memory ∨
      ∃ ret heap, tal.heap.malloc size = .ok (ret, heap) ∧ Allocates L tal live size ret ⟨tal.chain, heap⟩ := by
  rcases @malloc_spec tal.heap size with hnone | ⟨ret, heap, hmalloc, -, happ, hregions, -, hmem⟩
  · exact .inl hnone
  · refine .inr ⟨ret, heap, hmalloc, hs.add_big hbig hregions happ hmem, ⟨?_, ?_, ?_⟩, ?_⟩
    · exact fun al hal => ⟨al, hal, .rfl, le_refl _⟩
    · exact fun r hr => by rw [hregions]; exact List.mem_cons_of_mem _ hr
    · intro al hal x hlo hhi
      have hregion := happ _ (hs.held al hal).2
      have hp := al.p_le
      rw [Region.Apart, TinyAlloc.region] at hregion
      dsimp only at hregion
      exact hmem x (by omega)
    · intro al hal
      have hregion := happ _ (hs.held al hal).2
      have hp := al.p_le
      rw [Region.Apart, TinyAlloc.region] at hregion
      dsimp only at hregion
      rw [if_neg (Nat.not_le_of_lt hbig)]
      omega

/-- A new block. -/
theorem tal_realloc_null (hs : Safe L tal live) :
    tal_realloc tal 0 size = .error .no_memory ∨
      ∃ ret tal', tal_realloc tal 0 size = .ok (ret, tal') ∧ Reallocates L tal live size ret tal' := by
  by_cases hsize : size ≤ L
  · rcases alloc_spec hs hsize hs.length_pos with hnone | ⟨ret, tal', hok, halloc⟩
    · exact .inl hnone
    · exact .inr ⟨ret, tal', hok, halloc.safe, halloc.later.kept⟩
  · rw [tal_realloc_last hs (fun al hal => .inr (by rw [hs.limit al hal]; omega)) fun al _ => not_is_own_zero al,
      if_pos rfl]
    rcases hs.malloc_big (Nat.lt_of_not_le hsize) with hnone | ⟨ret, heap, hmalloc, halloc⟩
    · rw [hnone]
      exact .inl rfl
    · rw [hmalloc]
      exact .inr ⟨_, _, rfl, halloc.safe, halloc.later.kept⟩

/-- The block is counted again in the arena that it stays in. -/
theorem place_drop {al : TinyAlloc} (hpos : 0 < al.nb_allocs) (hroom : al.has_room size) :
    al.drop.place size hroom false = al.place size hroom true := by
  have hcount : al.nb_allocs - 1 + 1 = al.nb_allocs := by omega
  simp [TinyAlloc.place, TinyAlloc.drop, hcount]

/-- A small block grows, in its arena, in another one or in a region of its own. -/
theorem tal_realloc_small (hs : Safe L tal live) (hb : b ∈ live) (hsmall : b.size ≤ L) (hgrows : b.size ≤ size) :
    tal_realloc tal b.ptr size = .error .no_memory ∨
      ∃ ret tal', tal_realloc tal b.ptr size = .ok (ret, tal') ∧ Reallocates L tal (live.erase b) size ret tal' ∧
        b.data <+: read tal'.heap.mem ret size := by
  obtain ⟨al, hmember, hin⟩ := hs.small b hb hsmall
  obtain ⟨k, hal⟩ := List.mem_iff_getElem?.mp hmember
  obtain ⟨hk, hget⟩ := List.getElem?_eq_some_iff.mp hal
  have hlo := hin.lo
  rw [sizeof_header] at hlo
  have hown : al.is_own b.ptr := ⟨by omega, hin.own⟩
  have hbefore : ∀ j < k, ∀ a, tal.chain[j]? = some a → ¬ a.is_own b.ptr := by
    intro j hj a ha
    obtain ⟨hjlt, rfl⟩ := List.getElem?_eq_some_iff.mp ha
    have happ := List.pairwise_iff_getElem.mp hs.arenas j k hjlt hk hj
    rw [hget] at happ
    exact not_is_own_of_apart happ.symm hown
  obtain ⟨pre, post, hsplit, hset⟩ := split_at hal
  have hsafe : Safe L ⟨pre ++ al :: post, tal.heap⟩ live := by
    rw [← hsplit]
    exact hs
  obtain ⟨hpos, hdropped⟩ := @Safe.give_up _ _ _ _ al.drop _ _ hsafe _ hb hown ⟨rfl, rfl, rfl, rfl⟩ rfl rfl (.inl rfl)
  rw [← hset al.drop] at hdropped
  have hcounted : ¬ al.nb_allocs = 0 := by omega
  have hal₀ : (tal.chain.set k al.drop)[k]? = some al.drop := List.getElem?_set_self hk
  have hmember₀ : al.drop ∈ tal.chain.set k al.drop := List.mem_of_getElem? hal₀
  have hin₀ : InArena tal.heap.mem al.drop b := ⟨hin.lo, hin.hi, hin.own, hin.header⟩
  have hkept : ∀ a ∈ tal.chain, ∃ a' ∈ tal.chain.set k al.drop, a.Same a' ∧ a.p ≤ a'.p := by
    intro a ha
    rw [hset]
    rw [hsplit] at ha
    rcases mem_replace ha with rfl | hother
    · exact ⟨_, List.mem_append_right _ List.mem_cons_self, ⟨rfl, rfl, rfl, rfl⟩, le_refl _⟩
    · exact ⟨a, mem_of_other hother, .rfl, le_refl _⟩
  -- the new block with the copy in it
  have hend {ret : Nat} {tal' : Tal}
      (halloc : Allocates L ⟨tal.chain.set k al.drop, tal.heap⟩ (live.erase b) size ret tal') :
      ∃ heap, copy_block tal'.heap ret b.ptr = .ok heap ∧
        Reallocates L tal (live.erase b) size ret ⟨tal'.chain, heap⟩ ∧ b.data <+: read heap.mem ret size := by
    obtain ⟨heap, hcopy, hcopied, hgrown⟩ := halloc.copy_block hdropped hmember₀ hsmall hin₀ hgrows (hs.holds b hb)
    refine ⟨heap, hcopy, ⟨hcopied.safe, fun a ha => ?_⟩, hgrown⟩
    obtain ⟨a₀, ha₀, hsame₀, hp₀⟩ := hkept a ha
    obtain ⟨a', ha', hsame, hp⟩ := hcopied.later.kept a₀ ha₀
    exact ⟨a', ha', hsame₀.trans hsame, hp₀.trans hp⟩
  have hlimit := hs.limit al hmember
  rw [tal_realloc, tal_realloc_impl_walk (fun _ _ => .inl (by omega)) hbefore hk, tal_realloc_impl, hal]
  dsimp only
  by_cases hsize : size ≤ L
  · rw [if_pos ⟨.inr hown, by rw [hlimit]; exact hsize⟩]
    by_cases hroom : al.has_room size
    · obtain ⟨heap, hstore, halloc⟩ := hdropped.store_place hsize hal₀ hroom
      obtain ⟨heap', hcopy, hresult⟩ := hend halloc
      have hstored : tal.heap.store al.p (bytes_of [BitVec.ofNat 32 (adj_size size)]) = .ok heap := hstore
      rw [dif_pos hroom, hstored]
      refine .inr ⟨_, _, ?_, hresult⟩
      change (if al.is_own b.ptr then (copy_block heap (al.p + sizeof_header) b.ptr >>= _) else _) = _
      rw [if_pos hown]
      have hcopy' : copy_block heap (al.p + sizeof_header) b.ptr = .ok heap' := hcopy
      rw [hcopy']
      change Except.ok _ = Except.ok _
      rw [List.set_set, place_drop hpos hroom, decide_eq_true hown]
      rfl
    · rw [dif_neg hroom, dif_pos hown, if_neg hcounted]
      rcases alloc_spec hdropped hsize hdropped.length_pos with hnone | ⟨ret, tal', hok, halloc⟩
      · rw [hnone]
        exact .inl rfl
      · obtain ⟨heap, hcopy, hresult⟩ := hend halloc
        rw [hok]
        refine .inr ⟨ret, _, ?_, hresult⟩
        change (copy_block tal'.heap ret b.ptr >>= _) = _
        rw [hcopy]
        rfl
  · rw [if_neg (fun h => hsize (by rw [← hlimit]; exact h.2)), if_pos hown, if_neg hcounted]
    rcases hdropped.malloc_big (Nat.lt_of_not_le hsize) with hnone | ⟨ret, heap, hmalloc, halloc⟩
    · have hnone' : tal.heap.malloc size = .error .no_memory := hnone
      rw [hnone']
      exact .inl rfl
    · obtain ⟨heap', hcopy, hresult⟩ := hend halloc
      have hmalloc' : tal.heap.malloc size = .ok (ret, heap) := hmalloc
      rw [hmalloc']
      refine .inr ⟨ret, _, ?_, hresult⟩
      change (copy_block heap ret b.ptr >>= _) = _
      have hcopy' : copy_block heap ret b.ptr = .ok heap' := hcopy
      rw [hcopy']
      rfl

/-- A block of its own region grows. -/
theorem tal_realloc_big (hs : Safe L tal live) (hb : b ∈ live) (hbig : L < b.size) (hgrows : b.size ≤ size) :
    tal_realloc tal b.ptr size = .error .no_memory ∨
      ∃ ret tal', tal_realloc tal b.ptr size = .ok (ret, tal') ∧ Reallocates L tal (live.erase b) size ret tal' ∧
        b.data <+: read tal'.heap.mem ret size := by
  obtain ⟨hregion, hapart⟩ := hs.big b hb hbig
  have hptr : b.ptr ≠ 0 := tal.heap.nonnull _ hregion
  have hown : ∀ al ∈ tal.chain, ¬ al.is_own b.ptr := by
    rintro al hal ⟨hlo, hhi⟩
    have happ := (hapart al hal).2
    rw [Region.Apart, TinyAlloc.region] at happ
    dsimp only at happ
    omega
  rw [tal_realloc_last hs (fun _ _ => .inl hptr) hown, if_neg hptr]
  rcases realloc_spec hregion size with hnone | ⟨ret, heap, hrealloc, -, happ, hregions, hcopy, hmem⟩
  · have hnone' : tal.heap.realloc b.ptr size = .error .no_memory := hnone
    rw [hnone']
    exact .inl rfl
  · have hrealloc' : tal.heap.realloc b.ptr size = .ok (ret, heap) := hrealloc
    rw [hrealloc']
    have hfreed : Safe L ⟨tal.chain, tal.heap.erase ⟨b.ptr, b.size⟩⟩ (live.erase b) :=
      @Safe.free_big L tal.chain tal.heap _ live b hs hb hbig rfl rfl
    refine .inr ⟨ret, _, rfl, ⟨hfreed.add_big (by omega) hregions happ hmem, ?_⟩, ?_⟩
    · exact fun al hal => ⟨al, hal, .rfl, le_refl _⟩
    · rw [Nat.min_eq_left hgrows] at hcopy
      have hlength : b.data.length ≤ size := hgrows
      rw [List.prefix_iff_eq_take, read_take hlength]
      change b.data = read heap.mem ret b.size
      rw [hcopy]
      exact (hs.holds b hb).symm

/-- A block is given back; an arena's used part is forgotten with its last block only. -/
theorem tal_free_spec (hs : Safe L tal live) (hb : b ∈ live) :
    ∃ tal', tal_free_impl tal b.ptr = .ok tal' ∧ Safe L tal' (live.erase b) ∧
      ∀ al ∈ tal.chain, ∃ al' ∈ tal'.chain, al.Same al' ∧
        (al.p ≤ al'.p ∨ ∀ c ∈ live.erase b, ¬ al'.is_own c.ptr) := by
  unfold tal_free_impl
  rcases hfind : tal.chain.findIdx? fun al => al.is_own b.ptr with _ | k
  · rw [hfind]
    rw [List.findIdx?_eq_none_iff] at hfind
    have hbig : L < b.size := by
      by_contra hsmall
      obtain ⟨al, hal, hin⟩ := hs.small b hb (by omega)
      exact of_decide_eq_false (hfind al hal) ⟨(Nat.le_add_right _ _).trans hin.lo, hin.own⟩
    obtain ⟨hregion, -⟩ := hs.big b hb hbig
    have hptr : b.ptr ≠ 0 := tal.heap.nonnull _ hregion
    have hfree : tal.heap.free b.ptr = .ok (tal.heap.erase ⟨b.ptr, b.size⟩) := free_spec hregion
    rw [if_neg hptr, hfree]
    have hfreed := @Safe.free_big L tal.chain tal.heap (tal.heap.erase ⟨b.ptr, b.size⟩) live b hs hb hbig rfl rfl
    refine ⟨_, rfl, hfreed, ?_⟩
    exact fun al hal => ⟨al, hal, .rfl, .inl (le_refl _)⟩
  · obtain ⟨hk, hownd, -⟩ := List.findIdx?_eq_some_iff_getElem.mp hfind
    obtain ⟨al, hget⟩ : ∃ al, tal.chain[k] = al := ⟨_, rfl⟩
    have hal : tal.chain[k]? = some al := by rw [List.getElem?_eq_getElem hk, hget]
    rw [hget] at hownd
    have hown : al.is_own b.ptr := of_decide_eq_true hownd
    have hptr : b.ptr ≠ 0 := by
      have := al.buffer_pos
      have := hown.1
      omega
    obtain ⟨pre, post, hsplit, hset⟩ := split_at hal
    have hsafe : Safe L ⟨pre ++ al :: post, tal.heap⟩ live := by
      rw [← hsplit]
      exact hs
    have hreset : al.free.p = al.p ∨ al.free.nb_allocs = 0 := by
      by_cases hlast : al.nb_allocs - 1 = 0
      · exact .inr hlast
      · exact .inl (if_neg hlast)
    obtain ⟨hpos, hfreed⟩ := @Safe.give_up _ _ _ _ al.free _ _ hsafe _ hb hown ⟨rfl, rfl, rfl, rfl⟩ rfl rfl hreset
    have hcounted : ¬ al.nb_allocs = 0 := by omega
    have hnew : al.free ∈ pre ++ al.free :: post := List.mem_append_right _ List.mem_cons_self
    rw [if_neg hptr, hfind]
    simp only [hal]
    rw [if_neg hcounted, hset]
    refine ⟨_, rfl, hfreed, ?_⟩
    intro a ha
    rw [hsplit] at ha
    rcases mem_replace ha with rfl | hother
    · refine ⟨_, hnew, ⟨rfl, rfl, rfl, rfl⟩, ?_⟩
      rcases hreset with hsame | hnone
      · exact .inl (le_of_eq hsame.symm)
      · have hcount := hfreed.counted _ hnew
        rw [hnone, eq_comm, List.countP_eq_zero] at hcount
        exact .inr fun c hc hownc => hcount c hc (decide_eq_true hownc)
    · exact ⟨a, mem_of_other hother, .rfl, .inl (le_refl _)⟩

end realloc

end tcc.pp.tal
