import Tcc.Machine.Align

/-! The layout of structures and unions. -/

open machine

namespace tcc.layout

/-- The types of bit-fields. -/
inductive BitType where
  | byte
  | bool
  | short
  | int
  | llong
  deriving DecidableEq

/-- `type_size`, which is the alignment as well. -/
def BitType.size : BitType → Nat
  | .byte => 1
  | .bool => 1
  | .short => 2
  | .int => 4
  | .llong => 8

/-- What a member is: of a type with this `type_size`, which is negative for an array without a bound, or a
    bit-field of this type and `BIT_SIZE`. -/
inductive Kind where
  | plain (size : Int) (align : Nat)
  | bits (bt : BitType) (bit_size : Nat)

namespace Kind

def size : Kind → Nat
  | plain size _ => size.toNat
  | bits bt _ => bt.size

def align : Kind → Nat
  | plain _ align => align
  | bits bt _ => bt.size

/-- A bit-field of width zero. -/
def isGap : Kind → Bool
  | plain _ _ => false
  | bits _ n => n == 0

end Kind

/-- A member, with the fields of its attributes; `anon` is the bit `SYM_FIRST_ANOM` of its name. -/
structure Member where
  kind : Kind
  aligned : Nat
  packed : Bool
  anon : Bool

/-- `pcc`, `pragma_pack`, and the type: a union, and its attributes. -/
structure Config where
  pcc : Bool
  pragma_pack : Nat
  is_union : Bool
  packed : Bool
  aligned : Nat

/-- The alignment that an attribute gives, 0 without one. -/
def attr_align (aligned : Nat) : Nat := if aligned = 0 then 0 else 2 ^ (aligned - 1)

/-- `auxtype`: -1, the type that is accessed instead, or `VT_STRUCT`. -/
inductive Aux where
  | none
  | type (t : BitType)
  | bytes
  deriving DecidableEq

/-- A member that has been placed: `f->c`, and `BIT_POS` of a bit-field. -/
structure Field where
  kind : Kind
  c : Nat
  bit_pos : Nat
  auxtype : Aux

/-- The variables of the loop over the members; `prevbt` is none for `VT_STRUCT`. -/
structure Loop where
  c : Nat
  bit_pos : Nat
  offset : Nat
  maxalign : Nat
  prevbt : Option BitType
  prev_bit_size : Nat

/-- The alignment of a member after the attributes and the packing, and whether it is packed. -/
def member_align (cfg : Config) (m : Member) : Nat × Bool :=
  let a := attr_align m.aligned
  let (align, packed, a) :=
    if cfg.pcc && m.kind.isGap then (m.kind.align, false, a)
    else
      let (align, packed) := if cfg.pcc && (m.packed || cfg.packed) then (1, true) else (m.kind.align, false)
      if cfg.pragma_pack ≠ 0 then
        (if cfg.pragma_pack < align then cfg.pragma_pack else align, true,
          if cfg.pcc && cfg.pragma_pack < a then 0 else a)
      else (align, packed, a)
  (if a ≠ 0 then a else align, packed)

def Loop.grow (l : Loop) (align : Nat) : Loop := { l with maxalign := max l.maxalign align }

/-- A member of a union. -/
def place_union (cfg : Config) (m : Member) (align : Nat) (l : Loop) : Field × Loop :=
  let size := match m.kind with
    | .plain size _ => size.toNat
    | .bits bt n => if cfg.pcc then (n + 7) / 8 else bt.size
  (⟨m.kind, 0, 0, .none⟩, { l with offset := 0, c := max l.c size }.grow align)

/-- A member of a structure that is not a bit-field. -/
def place_plain (cfg : Config) (m : Member) (size : Int) (align : Nat) (l : Loop) : Field × Loop :=
  let c := align_up align (if cfg.pcc then l.c + (l.bit_pos + 7) / 8 else l.c)
  (⟨m.kind, c, 0, .none⟩,
    { l with c := c + size.toNat, offset := c, bit_pos := 0, prevbt := none, prev_bit_size := 0 }.grow align)

/-- The test for `new_field`. -/
def starts_field (m : Member) (bt : BitType) (n align : Nat) (packed : Bool) (l : Loop) : Bool :=
  n == 0 || m.aligned != 0 ||
    (!packed && bt.size / align < ((l.c * 8 + l.bit_pos) % (align * 8) + n + align * 8 - 1) / (align * 8))

/-- A bit-field in the layout of PCC. -/
def place_pcc (m : Member) (bt : BitType) (n align : Nat) (packed : Bool) (l : Loop) : Field × Loop :=
  let (c, bit_pos) :=
    if starts_field m bt n align packed l then (align_up align (l.c + (l.bit_pos + 7) / 8), 0)
    else (l.c, l.bit_pos)
  let bt := if bt.size = 8 ∧ n ≤ 32 then .int else bt
  -- while (bit_pos >= align * 8)
  let (c, bit_pos) := (c + bit_pos / (align * 8) * align, bit_pos % (align * 8))
  (⟨.bits bt n, c, bit_pos, .none⟩,
    { l with c := c, offset := c, bit_pos := bit_pos + n }.grow (if m.anon then 1 else align))

/-- The test for a new run of bit-fields in the layout of MS. -/
def starts_run (bt : BitType) (n : Nat) (l : Loop) : Bool :=
  decide (bt.size * 8 < l.bit_pos + n) || decide (0 < n) == (some bt != l.prevbt)

/-- A bit-field in the layout of MS. -/
def place_ms (bt : BitType) (n align : Nat) (l : Loop) : Field × Loop :=
  let (c, offset, bit_pos) :=
    if starts_run bt n l then
      (if n ≠ 0 ∨ l.prev_bit_size ≠ 0 then align_up align l.c + bt.size else align_up align l.c,
        align_up align l.c, 0)
    else (l.c, l.offset, l.bit_pos)
  (⟨.bits bt n, offset, bit_pos, .none⟩,
    { l with c := c, offset := offset, bit_pos := bit_pos + n, prevbt := some bt, prev_bit_size := n }.grow
      (if n = 0 ∧ l.prevbt ≠ some bt then 1 else align))

/-- A turn of the loop over the members. -/
def place (cfg : Config) (m : Member) (l : Loop) : Field × Loop :=
  let (align, packed) := member_align cfg m
  if cfg.is_union then place_union cfg m align l
  else match m.kind with
    | .plain size _ => place_plain cfg m size align l
    | .bits bt n => if cfg.pcc then place_pcc m bt n align packed l else place_ms bt n align l

def place_all (cfg : Config) : List Member → Loop → List Field × Loop
  | [], l => ([], l)
  | m :: ms, l =>
    let (f, l) := place cfg m l
    let (fs, l) := place_all cfg ms l
    (f :: fs, l)

/-- The type that has room for so many bytes, as far as there is one. -/
def wide_enough (s : Nat) : BitType :=
  if 4 < s then .llong else if 2 < s then .int else if 1 < s then .short else .byte

/-- The loop that looks for a type to access `n` bits from the bit `p` on, which ends when the address stays the
    same; `c0` is none for -1. -/
def access_loop (p n : Nat) : Nat → Option Nat → BitType → Option (Nat × BitType)
  | 0, _, _ => none
  | k + 1, c0, t =>
    let cx := p / 8 / t.size * t.size
    if c0 = some cx then some (cx, t)
    else access_loop p n k (some cx) (wide_enough ((p - cx * 8 + n + 7) / 8))

/-- The check whether a bit-field can be accessed by its type, in a structure of `c` bytes. -/
def fix_access (c : Nat) (f : Field) : Option Field :=
  match f.kind with
  | .plain _ _ => some f
  | .bits bt n =>
    if n = 0 then some f
    else if f.bit_pos + n ≤ bt.size * 8 ∧ f.c + bt.size ≤ c then some f
    else (access_loop (f.c * 8 + f.bit_pos) n 5 none .byte).map fun (cx, t) =>
      let px := f.c * 8 + f.bit_pos - cx * 8
      if px + n ≤ t.size * 8 ∧ cx + t.size ≤ c then
        { f with c := cx, bit_pos := px, auxtype := if t.size ≠ bt.size then .type t else .none }
      else { f with auxtype := .bytes }

/-- The members, `type->ref->c` and `type->ref->r`. -/
structure Layout where
  fields : List Field
  size : Nat
  align : Nat

/-- `struct_layout`; none if the search for a type does not end. -/
def struct_layout (cfg : Config) (members : List Member) : Option Layout :=
  let (fs, l) := place_all cfg members ⟨0, 0, 0, 1, none, 0⟩
  let c := if cfg.pcc then l.c + (l.bit_pos + 7) / 8 else l.c
  let bt := if cfg.aligned = 0 then 1 else attr_align cfg.aligned
  let align := max bt l.maxalign
  let a := if cfg.pragma_pack ≠ 0 ∧ cfg.pragma_pack < l.maxalign ∧ cfg.pcc = false then max cfg.pragma_pack bt
    else align
  let size := align_up a c
  (fs.mapM (fix_access size)).map fun fs => ⟨fs, size, align⟩

namespace Field

def first_bit (f : Field) : Nat := 8 * f.c + f.bit_pos

/-- The bits of the member. -/
def width (f : Field) : Nat :=
  match f.kind with
  | .plain size _ => 8 * size.toNat
  | .bits _ n => n

/-- The first byte that is read and written for the member, and how many there are: those of its type, those
    of another type, or the ones that have bits of it. -/
def access (f : Field) : Nat × Nat :=
  match f.kind with
  | .plain size _ => (f.c, size.toNat)
  | .bits bt n =>
    if n = 0 then (f.c, 0)
    else match f.auxtype with
      | .none => (f.c, bt.size)
      | .type t => (f.c, t.size)
      | .bytes => (f.c + f.bit_pos / 8, (f.bit_pos % 8 + n + 7) / 8)

end Field

/-- A member that the parser lets through. -/
structure Member.Wf (m : Member) : Prop where
  align : ∃ k, m.kind.align = 2 ^ k
  width : ∀ bt n, m.kind = .bits bt n → n ≤ 8 * bt.size

/-- `#pragma pack` only takes powers of two. -/
def Config.Wf (cfg : Config) : Prop := cfg.pragma_pack = 0 ∨ ∃ k, cfg.pragma_pack = 2 ^ k

/-- What is promised of a layout. -/
structure Layout.Valid (cfg : Config) (members : List Member) (L : Layout) : Prop where
  /-- the bits of a structure's members come one after the other -/
  ordered : cfg.is_union = false → L.fields.Pairwise fun f g => f.first_bit + f.width ≤ g.first_bit
  /-- what is accessed for a member has its bits, and is part of the structure -/
  covers : ∀ f ∈ L.fields, f.width ≠ 0 →
    8 * f.access.1 ≤ f.first_bit ∧ f.first_bit + f.width ≤ 8 * (f.access.1 + f.access.2)
  inside : ∀ f ∈ L.fields, f.access.1 + f.access.2 ≤ L.size
  /-- the position of a bit-field fits in `BIT_POS` -/
  bit_pos_lt : ∀ f ∈ L.fields, f.bit_pos < 64
  width_le : ∀ f ∈ L.fields, ∀ bt n, f.kind = .bits bt n → n ≤ 8 * bt.size
  aligned : ∀ (i : Nat) (m : Member) (f : Field) (size : Int) (align : Nat), members[i]? = some m →
    L.fields[i]? = some f → m.kind = .plain size align →
    (member_align cfg m).1 ∣ f.c ∧ (member_align cfg m).1 ∣ L.align
  size_aligned : cfg.pcc = true ∨ cfg.pragma_pack = 0 → L.align ∣ L.size

/-- With MS bit-fields, a width of zero lets a structure's members overlap: `int : 0; int a : 5; char b;`. -/
example : (struct_layout ⟨false, 0, false, false, 0⟩
    [⟨.bits .int 0, 0, false, true⟩, ⟨.bits .int 5, 0, false, false⟩, ⟨.plain 1 1, 0, false, false⟩]).map
      (fun L => L.fields.map Field.first_bit) = some [0, 0, 0] := by decide

end tcc.layout
