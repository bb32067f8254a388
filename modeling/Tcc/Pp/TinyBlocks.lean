import Tcc.Pp.TinyAlloc

/-! What holds of the arenas and of the blocks in use, at any time. -/

open machine.heap machine.wordbytes

namespace tcc.pp.tal

/-- A block in use, with what its user has put there. -/
structure Block where
  ptr : Nat
  data : List (BitVec 8)
deriving DecidableEq

def Block.size (b : Block) : Nat := b.data.length

namespace TinyAlloc

/-- The memory of the structure itself. -/
def header (al : TinyAlloc) : Region := ⟨al.addr, sizeof_TinyAlloc⟩

def region (al : TinyAlloc) : Region := ⟨al.buffer, al.size⟩

/-- Two arenas have no memory in common. -/
def Apart (al al' : TinyAlloc) : Prop :=
  al.header.Apart al'.header ∧ al.header.Apart al'.region ∧ al.region.Apart al'.header ∧ al.region.Apart al'.region

theorem Apart.symm {al al' : TinyAlloc} (h : al.Apart al') : al'.Apart al :=
  ⟨h.1.symm, h.2.2.1.symm, h.2.1.symm, h.2.2.2.symm⟩

instance : Std.Symm Apart := ⟨fun _ _ h => h.symm⟩

/-- The same memory is used. -/
structure Same (al al' : TinyAlloc) : Prop where
  addr : al'.addr = al.addr
  limit : al'.limit = al.limit
  size : al'.size = al.size
  buffer : al'.buffer = al.buffer

/-- The address, and `top`. -/
def link (al : TinyAlloc) : Nat × Option Nat := (al.addr, al.top)

end TinyAlloc

/-- `top` of the last arena is the first one, or there is one arena only. -/
def Linked (links : List (Nat × Option Nat)) : Prop :=
  ∃ head bottom, links.head? = some head ∧ links.getLast? = some bottom ∧
    (bottom.2 = none ∧ links = [head] ∨ bottom.2 = some head.1)

/-- What is in a header. -/
def header_at (mem : Mem) (a : Nat) : BitVec 32 := (words_of (read mem a sizeof_header)).headD 0

/-- The block and its header are in the used part of the arena. -/
structure InArena (mem : Mem) (al : TinyAlloc) (b : Block) : Prop where
  lo : al.buffer + sizeof_header ≤ b.ptr
  hi : b.ptr + adj_size b.size ≤ al.p
  own : b.ptr < al.buffer + al.size
  header : header_at mem (b.ptr - sizeof_header) = BitVec.ofNat 32 (adj_size b.size)

/-- The bytes of a block, with the header that a small one has. -/
def extent (L : Nat) (b : Block) : Region :=
  if b.size ≤ L then ⟨b.ptr - sizeof_header, sizeof_header + adj_size b.size⟩ else ⟨b.ptr, b.size⟩

/-- What holds between the arenas, the heap and the blocks in use. -/
structure Safe (L : Nat) (tal : Tal) (live : List Block) : Prop where
  limit : ∀ al ∈ tal.chain, al.limit = L
  held : ∀ al ∈ tal.chain, al.header ∈ tal.heap.regions ∧ al.region ∈ tal.heap.regions
  inner : ∀ al ∈ tal.chain, al.header.Apart al.region
  arenas : tal.chain.Pairwise TinyAlloc.Apart
  linked : Linked (tal.chain.map TinyAlloc.link)
  small : ∀ b ∈ live, b.size ≤ L → ∃ al ∈ tal.chain, InArena tal.heap.mem al b
  big : ∀ b ∈ live, L < b.size → ⟨b.ptr, b.size⟩ ∈ tal.heap.regions ∧
    ∀ al ∈ tal.chain, al.header.Apart ⟨b.ptr, b.size⟩ ∧ al.region.Apart ⟨b.ptr, b.size⟩
  blocks : live.Pairwise fun b b' => (extent L b).Apart (extent L b')
  counted : ∀ al ∈ tal.chain, al.nb_allocs = live.countP fun b => al.is_own b.ptr
  holds : ∀ b ∈ live, read tal.heap.mem b.ptr b.size = b.data

section facts

variable {L : Nat} {tal : Tal} {live : List Block}

theorem adj_size_spec {n : Nat} (hdvd : 4 ∣ L) (hlt : L < 2 ^ 32) (hn : n ≤ L) :
    n ≤ adj_size n ∧ adj_size n ≤ L ∧ adj_size n = (n + 3) / 4 * 4 := by
  rw [adj_size, Nat.mod_eq_of_lt (by omega)]
  omega

theorem Safe.limit_spec (hs : Safe L tal live) : 4 ∣ L ∧ L < 2 ^ 32 := by
  obtain ⟨head, -, hhead, -⟩ := hs.linked
  rw [List.head?_map] at hhead
  obtain ⟨al, hal, -⟩ := Option.map_eq_some_iff.mp hhead
  have hlimit := hs.limit al (List.mem_of_head? hal)
  exact ⟨hlimit ▸ al.limit_dvd, hlimit ▸ al.limit_lt⟩

theorem extent_small {b : Block} (hb : b.size ≤ L) :
    extent L b = ⟨b.ptr - sizeof_header, sizeof_header + adj_size b.size⟩ := if_pos hb

theorem extent_big {b : Block} (hb : L < b.size) : extent L b = ⟨b.ptr, b.size⟩ := if_neg (by omega)

/-- The memory may change outside the blocks in use, and more of it may be allocated. -/
theorem Safe.of_mem (hs : Safe L tal live) {heap : Heap} (hregions : ∀ r ∈ tal.heap.regions, r ∈ heap.regions)
    (hmem : ∀ b ∈ live, ∀ x, (extent L b).start ≤ x → x < (extent L b).start + (extent L b).size →
      heap.mem x = tal.heap.mem x) : Safe L ⟨tal.chain, heap⟩ live where
  limit := hs.limit
  held al hal := ⟨hregions _ (hs.held al hal).1, hregions _ (hs.held al hal).2⟩
  inner := hs.inner
  arenas := hs.arenas
  linked := hs.linked
  small b hb hsize := by
    obtain ⟨al, hal, hin⟩ := hs.small b hb hsize
    obtain ⟨hlo, hhi, hown, hheader⟩ := hin
    refine ⟨al, hal, hlo, hhi, hown, ?_⟩
    have hsame := hmem b hb
    rw [extent_small hsize] at hsame
    rw [← hheader, header_at, header_at, read_congr]
    intro x hx hx'
    exact hsame x hx (by dsimp only; omega)
  big b hb hsize := ⟨hregions _ (hs.big b hb hsize).1, (hs.big b hb hsize).2⟩
  blocks := hs.blocks
  counted := hs.counted
  holds b hb := by
    rw [← hs.holds b hb]
    refine read_congr ?_
    intro x hx hx'
    refine hmem b hb x ?_ ?_
    · rw [extent]
      split
      · exact (Nat.sub_le _ _).trans hx
      · exact hx
    · rw [extent]
      split
      · rename_i hsize
        obtain ⟨hdvd, hlt⟩ := hs.limit_spec
        have hadj := (adj_size_spec hdvd hlt hsize).1
        obtain ⟨al, hal, hin⟩ := hs.small b hb hsize
        have hlo := hin.lo
        dsimp only
        omega
      · exact hx'

theorem Safe.perm {live' : List Block} (hs : Safe L tal live) (hperm : live.Perm live') : Safe L tal live' where
  limit := hs.limit
  held := hs.held
  inner := hs.inner
  arenas := hs.arenas
  linked := hs.linked
  small b hb := hs.small b (hperm.mem_iff.mpr hb)
  big b hb := hs.big b (hperm.mem_iff.mpr hb)
  blocks := hperm.pairwise hs.blocks Region.Apart.symm
  counted al hal := by rw [hs.counted al hal, hperm.countP_eq]
  holds b hb := hs.holds b (hperm.mem_iff.mpr hb)

theorem Safe.header_le (hs : Safe L tal live) {b : Block} (hb : b ∈ live) (hsize : b.size ≤ L) :
    sizeof_header ≤ b.ptr := by
  obtain ⟨al, -, hin⟩ := hs.small b hb hsize
  have := hin.lo
  omega

/-- The blocks that are seen in an arena are the small ones that were placed there. -/
theorem Safe.of_is_own (hs : Safe L tal live) {al : TinyAlloc} (hal : al ∈ tal.chain) {b : Block} (hb : b ∈ live)
    (hown : al.is_own b.ptr) : b.size ≤ L ∧ InArena tal.heap.mem al b := by
  obtain ⟨hlo, hhi⟩ := hown
  by_cases hsize : b.size ≤ L
  · obtain ⟨al', hal', hin⟩ := hs.small b hb hsize
    have hsame : al = al' := by
      by_contra hne
      have happ := (hs.arenas.forall hal hal' hne).2.2.2
      rw [Region.Apart, TinyAlloc.region, TinyAlloc.region] at happ
      have hlo' := hin.lo
      have hown' := hin.own
      dsimp only at happ
      omega
    exact ⟨hsize, hsame ▸ hin⟩
  · have happ := ((hs.big b hb (by omega)).2 al hal).2
    rw [Region.Apart, TinyAlloc.region] at happ
    dsimp only at happ
    omega

/-- A block is in the used part of an arena, or apart from its buffer. -/
theorem Safe.extent_cases (hs : Safe L tal live) {al : TinyAlloc} (hal : al ∈ tal.chain) {b : Block} (hb : b ∈ live) :
    (al.buffer ≤ (extent L b).start ∧ (extent L b).start + (extent L b).size ≤ al.p ∧ 0 < (extent L b).size) ∨
      al.region.Apart (extent L b) := by
  by_cases hsize : b.size ≤ L
  · obtain ⟨al', hal', hin⟩ := hs.small b hb hsize
    obtain ⟨hlo, hhi, hown, -⟩ := hin
    rw [extent_small hsize]
    rw [sizeof_header] at hlo ⊢
    dsimp only
    by_cases hsame : al' = al
    · subst hsame
      exact .inl ⟨by omega, by omega, by omega⟩
    · refine .inr (Region.Apart.of_covers (hs.arenas.forall hal hal' (Ne.symm hsame)).2.2.2 (by omega) ?_)
      have hp := al'.p_le
      exact ⟨by rw [TinyAlloc.region]; dsimp only; omega, by rw [TinyAlloc.region]; dsimp only; omega⟩
  · rw [extent_big (by omega)]
    exact .inr ((hs.big b hb (by omega)).2 al hal).2

end facts

end tcc.pp.tal
