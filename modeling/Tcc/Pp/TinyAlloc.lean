import Mathlib.Algebra.Group.Nat.Defs
import Mathlib.Data.Nat.Basic
import Mathlib.Order.Basic
import Tcc.Machine.Heap
import Tcc.Machine.WordBytes

/-! The allocator of small objects. Pointers have 64 bits; `TAL_DEBUG` and `TAL_INFO` are not
    defined. -/

open machine.heap machine.wordbytes

namespace tcc.pp.tal

/-- `sizeof(TinyAlloc)`. -/
def sizeof_TinyAlloc : Nat := 48

/-- `sizeof(tal_header_t)`. -/
def sizeof_header : Nat := 4

/-- An arena, at its address. The list of arenas stands for `next`. -/
structure TinyAlloc where
  addr : Nat
  limit : Nat
  size : Nat
  buffer : Nat
  p : Nat
  nb_allocs : Nat
  top : Option Nat
  buffer_pos : 0 < buffer
  le_p : buffer ≤ p
  p_le : p ≤ buffer + size
  count_le : 4 * nb_allocs ≤ p - buffer
  size_lt : size < 2 ^ 32
  limit_dvd : 4 ∣ limit
  limit_lt : limit < 2 ^ 32

/-- The pointer is in the buffer of the arena. -/
def TinyAlloc.is_own (al : TinyAlloc) (p : Nat) : Prop := al.buffer ≤ p ∧ p < al.buffer + al.size

instance (al : TinyAlloc) (p : Nat) : Decidable (al.is_own p) := inferInstanceAs (Decidable (_ ∧ _))

def adj_size (size : Nat) : Nat := (size + 3) % 2 ^ 32 / 4 * 4

namespace TinyAlloc

variable (al : TinyAlloc)

/-- There is room for a block and its header. -/
def has_room (size : Nat) : Prop := al.p - al.buffer + adj_size size + sizeof_header < al.size

instance (size : Nat) : Decidable (al.has_room size) := inferInstanceAs (Decidable (_ < _))

/-- The arena behind a new block. -/
def place (size : Nat) (hroom : al.has_room size) (is_own : Bool) : TinyAlloc :=
  { al with
    p := al.p + (adj_size size + sizeof_header)
    nb_allocs := if is_own then al.nb_allocs else al.nb_allocs + 1
    le_p := Nat.le_add_right_of_le al.le_p
    p_le := by
      have := al.le_p
      rw [has_room, sizeof_header] at hroom
      rw [sizeof_header]
      omega
    count_le := by
      have := al.le_p
      have := al.count_le
      rw [sizeof_header]
      split <;> omega }

/-- One block less. -/
def drop : TinyAlloc :=
  { al with
    nb_allocs := al.nb_allocs - 1
    count_le := by
      have := al.count_le
      omega }

/-- One block less; the buffer is empty again after the last one. -/
def free : TinyAlloc :=
  { al with
    p := if al.nb_allocs - 1 = 0 then al.buffer else al.p
    nb_allocs := al.nb_allocs - 1
    le_p := by
      have := al.le_p
      split <;> omega
    p_le := by
      have := al.p_le
      split <;> omega
    count_le := by
      have := al.count_le
      split <;> omega }

end TinyAlloc

/-- The arenas from the newest one on, and the heap. -/
structure Tal where
  chain : List TinyAlloc
  heap : Heap

/-- `malloc` does not answer with 0. -/
def tal_new (heap : Heap) (limit size : Nat) (hlimit : 4 ∣ limit ∧ limit < 2 ^ 32) (hsize : size < 2 ^ 32) :
    Except Fault (TinyAlloc × Heap) := do
  let (addr, heap) ← heap.malloc sizeof_TinyAlloc
  let (buffer, heap) ← heap.malloc size
  if hpos : 0 < buffer then
    .ok ({
      addr := addr
      limit := limit
      size := size
      buffer := buffer
      p := buffer
      nb_allocs := 0
      top := none
      buffer_pos := hpos
      le_p := le_refl _
      p_le := Nat.le_add_right _ _
      count_le := Nat.zero_le _
      size_lt := hsize
      limit_dvd := hlimit.1
      limit_lt := hlimit.2 }, heap)
  else .error .undefined

/-- The arena that the next one is made from. -/
def newest (chain : List TinyAlloc) (bottom : TinyAlloc) : Option TinyAlloc :=
  match bottom.top with
  | some top => chain.find? fun al => al.addr = top
  | none => some bottom

/-- A new arena before all others. -/
def tal_grow (tal : Tal) : Except Fault Tal :=
  match tal.chain.getLast? with
  | none => .error .undefined
  | some bottom =>
    match newest tal.chain bottom with
    | none => .error .undefined
    | some next => do
      let (al, heap) ← tal_new tal.heap next.limit (next.size * 2 % 2 ^ 32)
        ⟨next.limit_dvd, next.limit_lt⟩ (Nat.mod_lt _ (by decide))
      let chain := tal.chain.dropWhile fun a => a.addr ≠ next.addr
      .ok ⟨al :: chain.set (chain.length - 1) { bottom with top := some al.addr }, heap⟩

/-- `memcpy` of an old block, as many bytes as its header says. -/
def copy_block (heap : Heap) (ret p : Nat) : Except Fault Heap := do
  let header ← heap.load (p - sizeof_header) sizeof_header
  heap.memcpy ret p ((words_of header).headD 0).toNat

/-- A new arena is empty, in memory of its own. -/
theorem tal_new_spec (heap : Heap) {limit size : Nat} (hlimit : 4 ∣ limit ∧ limit < 2 ^ 32) (hsize : size < 2 ^ 32) :
    tal_new heap limit size hlimit hsize = .error .no_memory ∨
      ∃ al g, tal_new heap limit size hlimit hsize = .ok (al, g) ∧ al.limit = limit ∧ al.size = size ∧
        al.p = al.buffer ∧ al.nb_allocs = 0 ∧ al.top = none ∧
        (∀ r ∈ heap.regions, Region.Apart ⟨al.addr, sizeof_TinyAlloc⟩ r ∧ Region.Apart ⟨al.buffer, size⟩ r) ∧
        Region.Apart ⟨al.buffer, size⟩ ⟨al.addr, sizeof_TinyAlloc⟩ ∧
        g.regions = ⟨al.buffer, size⟩ :: ⟨al.addr, sizeof_TinyAlloc⟩ :: heap.regions ∧
        g.answers.length < heap.answers.length ∧
        ∀ x, ¬ (al.addr ≤ x ∧ x < al.addr + sizeof_TinyAlloc) → ¬ (al.buffer ≤ x ∧ x < al.buffer + size) →
          g.mem x = heap.mem x := by
  unfold tal_new
  rcases @malloc_spec heap sizeof_TinyAlloc with hnone | ⟨addr, g, hmalloc, haddr, happ, hregions, hlen, hsame⟩
  · rw [hnone]
    exact .inl rfl
  rw [hmalloc]
  rcases @malloc_spec g size with hnone | ⟨buffer, g', hmalloc', hbuffer, happ', hregions', hlen', hsame'⟩
  · refine .inl ?_
    change (g.malloc size >>= _) = _
    rw [hnone]
    rfl
  · refine .inr ⟨⟨addr, limit, size, buffer, buffer, 0, none, Nat.pos_of_ne_zero hbuffer, le_refl _,
      Nat.le_add_right _ _, Nat.zero_le _, hsize, hlimit.1, hlimit.2⟩, g', ?_, rfl, rfl, rfl, rfl, rfl, ?_, ?_, ?_, ?_, ?_⟩
    · change (g.malloc size >>= _) = _
      rw [hmalloc']
      exact dif_pos (Nat.pos_of_ne_zero hbuffer)
    · intro r hr
      exact ⟨happ r hr, happ' r (by rw [hregions]; exact List.mem_cons_of_mem _ hr)⟩
    · exact happ' _ (by rw [hregions]; exact List.mem_cons_self)
    · rw [hregions', hregions]
    · exact hlen'.trans hlen
    · intro x haddr hbuf
      rw [hsame' x hbuf, hsame x haddr]

theorem tal_grow_answers {tal grown : Tal} (hgrow : tal_grow tal = .ok grown) :
    grown.heap.answers.length < tal.heap.answers.length := by
  unfold tal_grow at hgrow
  split at hgrow
  · cases hgrow
  · split at hgrow
    · cases hgrow
    · rename_i next _
      have hlimit := And.intro next.limit_dvd next.limit_lt
      have hsize : next.size * 2 % 2 ^ 32 < 2 ^ 32 := Nat.mod_lt _ (by decide)
      rcases tal_new_spec tal.heap hlimit hsize with hnone | ⟨al, g, hnew, -, -, -, -, -, -, -, -, hlen, -⟩
      · rw [hnone] at hgrow
        cases hgrow
      · rw [hnew] at hgrow
        cases hgrow
        exact hlen

/-- `tal_realloc_impl` at the arena with a number. A count that would wrap is undefined here, too. -/
def tal_realloc_impl (tal : Tal) (i p size : Nat) : Except Fault (Nat × Tal) :=
  match tal.chain[i]? with
  | none => .error .undefined
  | some al =>
    if (p = 0 ∨ al.is_own p) ∧ size ≤ al.limit then
      if hroom : al.has_room size then do
        let heap ← tal.heap.store al.p (bytes_of [BitVec.ofNat 32 (adj_size size)])
        let ret := al.p + sizeof_header
        let chain := tal.chain.set i (al.place size hroom (al.is_own p))
        if al.is_own p then
          let heap ← copy_block heap ret p
          .ok (ret, ⟨chain, heap⟩)
        else .ok (ret, ⟨chain, heap⟩)
      else if _hown : al.is_own p then
        if al.nb_allocs = 0 then .error .undefined
        else do
          let (ret, tal) ← tal_realloc_impl ⟨tal.chain.set i al.drop, tal.heap⟩ 0 0 size
          let heap ← copy_block tal.heap ret p
          .ok (ret, { tal with heap := heap })
      else if hnext : i + 1 < tal.chain.length then tal_realloc_impl tal (i + 1) p size
      else
        match _hgrow : tal_grow tal with
        | .error stop => .error stop
        | .ok grown => tal_realloc_impl grown 0 p size
    else if al.is_own p then
      if al.nb_allocs = 0 then .error .undefined
      else do
        let (ret, heap) ← tal.heap.malloc size
        let heap ← copy_block heap ret p
        .ok (ret, ⟨tal.chain.set i al.drop, heap⟩)
    else if hnext : i + 1 < tal.chain.length then tal_realloc_impl tal (i + 1) p size
    else do
      let (ret, heap) ← if p = 0 then tal.heap.malloc size else tal.heap.realloc p size
      .ok (ret, ⟨tal.chain, heap⟩)
termination_by (tal.heap.answers.length, p, tal.chain.length - i)
decreasing_by
  · have hpos := al.buffer_pos
    have := _hown.1
    exact Prod.Lex.right _ (Prod.Lex.left _ _ (by omega))
  · exact Prod.Lex.right _ (Prod.Lex.right _ (by omega))
  · exact Prod.Lex.left _ _ (tal_grow_answers _hgrow)
  · exact Prod.Lex.right _ (Prod.Lex.right _ (by omega))

def tal_realloc (tal : Tal) (p size : Nat) : Except Fault (Nat × Tal) := tal_realloc_impl tal 0 p size

def tal_free_impl (tal : Tal) (p : Nat) : Except Fault Tal :=
  if p = 0 then .ok tal
  else
    match tal.chain.findIdx? fun al => al.is_own p with
    | some i =>
      match tal.chain[i]? with
      | none => .error .undefined
      | some al => if al.nb_allocs = 0 then .error .undefined else .ok { tal with chain := tal.chain.set i al.free }
    | none => do
      let heap ← tal.heap.free p
      .ok { tal with heap := heap }

end tcc.pp.tal
