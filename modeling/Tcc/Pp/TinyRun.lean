import Tcc.Pp.TinyMoves

/-! The allocator with its users: calls in any order, and writes to the blocks in use. -/

open machine.heap machine.wordbytes

namespace tcc.pp.tal

/-- What an allocator is made with. -/
structure Params where
  limit : Nat
  size : Nat
  limit_ok : 4 ∣ limit ∧ limit < 2 ^ 32
  size_lt : size < 2 ^ 32

def TOKSYM_TAL : Params := ⟨256, 768 * 1024, by omega, by omega⟩

def TOKSTR_TAL : Params := ⟨128, 768 * 1024, by omega, by omega⟩

structure System where
  state : Tal
  live : List Block

inductive Op where
  | realloc (p size : Nat)
  | free (p : Nat)
  | write (p offset : Nat) (c : BitVec 8)

/-- The block in use that a pointer is for. -/
def block_at (live : List Block) (p : Nat) : Option Block := live.find? fun b => b.ptr = p

/-- The other blocks. -/
def others (live : List Block) (p : Nat) : List Block :=
  match block_at live p with
  | some b => live.erase b
  | none => live

/-- A pointer is given to the functions while it is in use only, no block gets smaller, and its user
    writes to the block only. -/
def System.Allows (s : System) : Op → Prop
  | .realloc p size => p = 0 ∨ ∃ b ∈ s.live, b.ptr = p ∧ b.size ≤ size
  | .free p => p = 0 ∨ ∃ b ∈ s.live, b.ptr = p
  | .write p offset _ => ∃ b ∈ s.live, b.ptr = p ∧ offset < b.size

def exec (s : System) : Op → Except Fault System
  | .realloc p size => do
    let (ret, tal) ← tal_realloc s.state p size
    .ok ⟨tal, ⟨ret, read tal.heap.mem ret size⟩ :: others s.live p⟩
  | .free p => do
    let tal ← tal_free_impl s.state p
    .ok ⟨tal, others s.live p⟩
  | .write p offset c =>
    match block_at s.live p with
    | none => .error .undefined
    | some b => do
      let heap ← s.state.heap.store (p + offset) [c]
      .ok ⟨{ s.state with heap := heap }, { b with data := b.data.set offset c } :: s.live.erase b⟩

/-- A state that calls in some order lead to. -/
inductive Reachable (params : Params) : System → Prop where
  | new {heap heap' : Heap} {al : TinyAlloc}
      (hnew : tal_new heap params.limit params.size params.limit_ok params.size_lt = .ok (al, heap')) :
      Reachable params ⟨⟨[al], heap'⟩, []⟩
  | step {s s' : System} {op : Op} (hs : Reachable params s) (hallows : s.Allows op) (hexec : exec s op = .ok s') :
      Reachable params s'

section run

variable {L : Nat} {tal : Tal} {live : List Block} {b : Block}

theorem Safe.ptr_ne_zero (hs : Safe L tal live) (hb : b ∈ live) : b.ptr ≠ 0 := by
  by_cases hsmall : b.size ≤ L
  · obtain ⟨al, -, hin⟩ := hs.small b hb hsmall
    have := al.buffer_pos
    have := hin.lo
    omega
  · exact tal.heap.nonnull _ (hs.big b hb (by omega)).1

theorem Safe.small_of_ptr (hs : Safe L tal live) {c : Block} (hb : b ∈ live) (hc : c ∈ live) (hptr : b.ptr = c.ptr)
    (hsmall : b.size ≤ L) : c.size ≤ L := by
  obtain ⟨al, hal, hin⟩ := hs.small b hb hsmall
  refine (hs.of_is_own hal hc ?_).1
  rw [← hptr]
  exact ⟨(Nat.le_add_right _ _).trans hin.lo, hin.own⟩

/-- Blocks in use have pointers of their own. -/
theorem Safe.eq_of_ptr (hs : Safe L tal live) {c : Block} (hb : b ∈ live) (hc : c ∈ live) (hptr : b.ptr = c.ptr) :
    b = c := by
  have hsymm : Std.Symm fun b b' : Block => (extent L b).Apart (extent L b') := ⟨fun _ _ h => h.symm⟩
  by_contra hne
  have happ := hs.blocks.forall hb hc hne
  have hstart : (extent L b).start = (extent L c).start := by
    by_cases hsmall : b.size ≤ L
    · rw [extent_small hsmall, extent_small (hs.small_of_ptr hb hc hptr hsmall), hptr]
    · have hbig : ¬ c.size ≤ L := fun h => hsmall (hs.small_of_ptr hc hb hptr.symm h)
      rw [extent_big (by omega), extent_big (by omega), hptr]
  rw [Region.Apart] at happ
  omega

/-- No block covers the structure of an arena. -/
theorem Safe.header_apart (hs : Safe L tal live) {al : TinyAlloc} (hal : al ∈ tal.chain) (hb : b ∈ live) :
    al.header.Apart (extent L b) := by
  by_cases hsmall : b.size ≤ L
  · obtain ⟨al', hal', hin⟩ := hs.small b hb hsmall
    obtain ⟨hlo, hhi, -, -⟩ := hin
    have hp := al'.p_le
    rw [sizeof_header] at hlo
    have happ : al.header.Apart al'.region := by
      by_cases hsame : al = al'
      · rw [← hsame]
        exact hs.inner al hal
      · exact (hs.arenas.forall hal hal' hsame).2.1
    rw [extent_small hsmall, sizeof_header]
    refine happ.of_covers (by omega) ⟨?_, ?_⟩
    · rw [TinyAlloc.region]
      dsimp only
      omega
    · rw [TinyAlloc.region]
      dsimp only
      omega
  · rw [extent_big (by omega)]
    exact ((hs.big b hb (by omega)).2 al hal).1

theorem Safe.block_at_eq (hs : Safe L tal live) (hb : b ∈ live) : block_at live b.ptr = some b := by
  obtain ⟨c, hc⟩ : ∃ c, block_at live b.ptr = some c := by
    rw [← Option.isSome_iff_exists, block_at, List.find?_isSome]
    exact ⟨b, hb, by simp⟩
  have hptr : c.ptr = b.ptr := by simpa using List.find?_some hc
  rw [hc, hs.eq_of_ptr (List.mem_of_find?_eq_some hc) hb hptr]

theorem Safe.others_eq (hs : Safe L tal live) (hb : b ∈ live) : others live b.ptr = live.erase b := by
  rw [others, hs.block_at_eq hb]

theorem Safe.others_zero (hs : Safe L tal live) : others live 0 = live := by
  have hnone : block_at live 0 = none := by
    rw [block_at, List.find?_eq_none]
    intro b hb
    simpa using hs.ptr_ne_zero hb
  rw [others, hnone]

/-- A new allocator has no block. -/
theorem Safe.new {heap heap' : Heap} {al : TinyAlloc} {limit size : Nat} (hlimit : 4 ∣ limit ∧ limit < 2 ^ 32)
    (hsize : size < 2 ^ 32) (hnew : tal_new heap limit size hlimit hsize = .ok (al, heap')) :
    Safe limit ⟨[al], heap'⟩ [] := by
  rcases tal_new_spec heap hlimit hsize with hnone |
    ⟨al', g, hok, hlim, hsz, -, hcount, htop, -, hinner, hregions, -, -⟩
  · rw [hnone] at hnew
    cases hnew
  · rw [hok] at hnew
    cases hnew
    have hregion : al.region = ⟨al.buffer, size⟩ := by rw [TinyAlloc.region, hsz]
    have hone {P : TinyAlloc → Prop} (h : P al) : ∀ a ∈ [al], P a := List.forall_mem_singleton.mpr h
    have hnone {P : Block → Prop} : ∀ b ∈ ([] : List Block), P b := fun b hb => absurd hb List.not_mem_nil
    refine ⟨hone hlim, hone ?_, hone ?_, List.pairwise_singleton _ _, ⟨al.link, al.link, rfl, rfl, .inl ⟨htop, rfl⟩⟩,
      hnone, hnone, .nil, hone hcount, hnone⟩
    · rw [hregion]
      refine ⟨?_, ?_⟩
      · rw [hregions]
        exact List.mem_cons_of_mem _ List.mem_cons_self
      · rw [hregions]
        exact List.mem_cons_self
    · rw [hregion]
      exact hinner.symm

/-- The arenas stay allocated, and the used part of one gets smaller only when no block is in it. -/
def Kept (s s' : System) : Prop :=
  ∀ al ∈ s.state.chain, ∃ al' ∈ s'.state.chain, al.Same al' ∧
    (al.p ≤ al'.p ∨ ∀ b ∈ s'.live, ¬ al'.is_own b.ptr)

/-- A block that is allocated again has its old bytes, and the other blocks stay what they are. -/
def Grows (s s' : System) (p size : Nat) : Prop :=
  ∃ b', s'.live = b' :: others s.live p ∧ b'.size = size ∧ ∀ b ∈ s.live, b.ptr = p → b.data <+: b'.data

variable {s : System}

/-- What one call of `tal_realloc` does. -/
theorem exec_realloc {p size : Nat} (hs : Safe L s.state s.live) (hallows : s.Allows (.realloc p size)) :
    exec s (.realloc p size) = .error .no_memory ∨
      ∃ s', exec s (.realloc p size) = .ok s' ∧ Safe L s'.state s'.live ∧ Kept s s' ∧ Grows s s' p size := by
  have hend {ret : Nat} {tal' : Tal} (hok : tal_realloc s.state p size = .ok (ret, tal'))
      (hresult : Reallocates L s.state (others s.live p) size ret tal')
      (hcopy : ∀ b ∈ s.live, b.ptr = p → b.data <+: read tal'.heap.mem ret size) :
      ∃ s', exec s (.realloc p size) = .ok s' ∧ Safe L s'.state s'.live ∧ Kept s s' ∧ Grows s s' p size := by
    refine ⟨⟨tal', ⟨ret, read tal'.heap.mem ret size⟩ :: others s.live p⟩, ?_, hresult.safe, ?_, ?_⟩
    · rw [exec, hok]
      rfl
    · intro al hal
      obtain ⟨al', hal', hsame, hp⟩ := hresult.kept al hal
      exact ⟨al', hal', hsame, .inl hp⟩
    · exact ⟨_, rfl, length_read, hcopy⟩
  have hfail (hnone : tal_realloc s.state p size = .error .no_memory) :
      exec s (.realloc p size) = .error .no_memory := by
    rw [exec, hnone]
    rfl
  rcases hallows with rfl | ⟨b, hb, rfl, hgrows⟩
  · rcases tal_realloc_null hs with hnone | ⟨ret, tal', hok, hresult⟩
    · exact .inl (hfail hnone)
    · refine .inr (hend hok ?_ fun b hb hptr => absurd hptr (hs.ptr_ne_zero hb))
      rw [hs.others_zero]
      exact hresult
  · have hmove : tal_realloc s.state b.ptr size = .error .no_memory ∨
        ∃ ret tal', tal_realloc s.state b.ptr size = .ok (ret, tal') ∧
          Reallocates L s.state (s.live.erase b) size ret tal' ∧ b.data <+: read tal'.heap.mem ret size := by
      by_cases hsmall : b.size ≤ L
      · exact tal_realloc_small hs hb hsmall hgrows
      · exact tal_realloc_big hs hb (Nat.lt_of_not_le hsmall) hgrows
    rcases hmove with hnone | ⟨ret, tal', hok, hresult, hcopy⟩
    · exact .inl (hfail hnone)
    · refine .inr (hend hok ?_ fun c hc hptr => ?_)
      · rw [hs.others_eq hb]
        exact hresult
      · rw [hs.eq_of_ptr hc hb hptr]
        exact hcopy

theorem exec_free {p : Nat} (hs : Safe L s.state s.live) (hallows : s.Allows (.free p)) :
    ∃ s', exec s (.free p) = .ok s' ∧ Safe L s'.state s'.live ∧ Kept s s' := by
  rcases hallows with rfl | ⟨b, hb, rfl⟩
  · refine ⟨⟨s.state, s.live⟩, ?_, hs, fun al hal => ⟨al, hal, .rfl, .inl (le_refl _)⟩⟩
    have hnull : tal_free_impl s.state 0 = .ok s.state := if_pos rfl
    rw [exec, hnull, hs.others_zero]
    rfl
  · obtain ⟨tal', hok, hsafe, hkept⟩ := tal_free_spec hs hb
    refine ⟨⟨tal', s.live.erase b⟩, ?_, hsafe, hkept⟩
    rw [exec, hok, hs.others_eq hb]
    rfl

theorem exec_write {p offset : Nat} {c : BitVec 8} (hs : Safe L s.state s.live)
    (hallows : s.Allows (.write p offset c)) :
    ∃ s', exec s (.write p offset c) = .ok s' ∧ Safe L s'.state s'.live ∧ Kept s s' := by
  obtain ⟨b, hb, rfl, hoffset⟩ := hallows
  obtain ⟨r, hr, ⟨hlo, hhi⟩, -⟩ := hs.extent_allocated hb
  obtain ⟨hstart, hstop, hle⟩ := hs.extent_eq hb
  have hallocated : s.state.heap.Allocated (b.ptr + offset) [c].length := by
    refine ⟨r, hr, by omega, ?_⟩
    rw [List.length_singleton]
    omega
  obtain ⟨heap, hheap⟩ : ∃ heap : Heap, heap =
    { s.state.heap with mem := write s.state.heap.mem (b.ptr + offset) [c] } := ⟨_, rfl⟩
  have hstore : s.state.heap.store (b.ptr + offset) [c] = .ok heap := by rw [store_spec hallocated, hheap]
  have hfirst := hs.perm (List.perm_cons_erase hb)
  have hrefill := @Safe.refill L s.state.chain s.state.heap heap (s.live.erase b) b hfirst
    (fun r hr => by rw [hheap]; exact hr) (by
      intro x hx
      rw [hheap]
      refine write_of_not ?_
      rw [List.length_singleton]
      omega)
  have hdata : read heap.mem b.ptr b.size = b.data.set offset c := by
    rw [hheap]
    dsimp only
    rw [read_write_one hoffset, hs.holds b hb]
  rw [hdata] at hrefill
  refine ⟨⟨⟨s.state.chain, heap⟩, ⟨b.ptr, b.data.set offset c⟩ :: s.live.erase b⟩, ?_, hrefill,
    fun al hal => ⟨al, hal, .rfl, .inl (le_refl _)⟩⟩
  rw [exec, hs.block_at_eq hb]
  dsimp only
  rw [hstore]
  rfl

theorem exec_spec {op : Op} (hs : Safe L s.state s.live) (hallows : s.Allows op) :
    exec s op = .error .no_memory ∨
      ∃ s', exec s op = .ok s' ∧ Safe L s'.state s'.live ∧ Kept s s' ∧
        ∀ p size, op = .realloc p size → Grows s s' p size := by
  cases op with
  | realloc p size =>
    rcases exec_realloc hs hallows with hnone | ⟨s', hok, hsafe, hkept, hgrows⟩
    · exact .inl hnone
    · refine .inr ⟨s', hok, hsafe, hkept, ?_⟩
      intro p' size' heq
      cases heq
      exact hgrows
  | free p =>
    obtain ⟨s', hok, hsafe, hkept⟩ := exec_free hs hallows
    exact .inr ⟨s', hok, hsafe, hkept, nofun⟩
  | write p offset c =>
    obtain ⟨s', hok, hsafe, hkept⟩ := exec_write hs hallows
    exact .inr ⟨s', hok, hsafe, hkept, nofun⟩

theorem Reachable.safe {params : Params} (hs : Reachable params s) : Safe params.limit s.state s.live := by
  induction hs with
  | new hnew => exact Safe.new _ _ hnew
  | step _ hallows hexec ih =>
    rcases exec_spec ih hallows with hnone | ⟨s', hok, hsafe, -⟩
    · rw [hnone] at hexec
      cases hexec
    · rw [hok] at hexec
      cases hexec
      exact hsafe

end run

end tcc.pp.tal
