import Tcc.Gen.Types
import Tcc.Machine.Align

open machine

namespace tcc.riscv64

open BType

/-- The two register classes of arguments, with the values of `RC_INT` and `RC_FLOAT`. -/
inductive RegClass where
  | RC_INT | RC_FLOAT
  deriving DecidableEq, Repr

open RegClass

/-- The arrays `prc` and `fieldofs` of `reg_pass`: the number of registers or -1, the classes of
    two registers and the fields in them, each as its offset and basic type. -/
structure Pass where
  n : Int
  prc1 : Option RegClass
  prc2 : Option RegClass
  fieldofs1 : Nat
  fieldofs2 : Nat
  deriving DecidableEq, Repr

def Pass.start : Pass := ⟨0, none, none, 0, 0⟩

/-- `rc[++rc[0]] = rc; fieldofs[rc[0]] = fieldofs`. Counted up from -1 the index is that of the
    counter itself, which becomes `RC_FLOAT`. -/
def Pass.push (p : Pass) (rc : RegClass) (fieldofs : Nat) : Pass :=
  if p.n = 0 then { p with n := 1, prc1 := some rc, fieldofs1 := fieldofs }
  else if p.n = 1 then { p with n := 2, prc2 := some rc, fieldofs2 := fieldofs }
  else { p with n := 2, fieldofs2 := fieldofs }

def Pass.fail (p : Pass) : Pass := { p with n := -1 }

mutual

def reg_pass_rec (ofs : Nat) : CType → Pass → Pass
  | .struct union _ _ fields, p => if union then p.fail else reg_pass_fields ofs fields p
  | .array elem count, p =>
    if count < 0 ∨ count > 2 then p.fail
    else
      let sz := (type_size 8 elem).1.toNat
      let q := reg_pass_rec ofs elem p
      if q.n > 2 ∨ (q.n = 2 ∧ count > 1) then q.fail
      else if count = 2 ∧ q.n ≠ 0 ∧ q.prc1 = some RC_FLOAT then
        q.push RC_FLOAT ((ofs + sz) <<< 4 ||| elem.btype.code)
      else if count = 2 then q.fail
      else q
  | .basic t, p =>
    if p.n = 2 ∨ p.n < 0 ∨ t.bt = VT_LDOUBLE then p.fail
    else if p.n = 0 ∨ p.prc1 = some RC_FLOAT ∨ is_float t.bt = true then
      p.push (if is_float t.bt then RC_FLOAT else RC_INT)
        (ofs <<< 4 ||| (if t.bt = VT_PTR then VT_LLONG else t.bt).code)
    else p.fail

def reg_pass_fields (ofs : Nat) : FieldList → Pass → Pass
  | .nil, p => p
  | .cons c type rest, p => reg_pass_fields ofs rest (reg_pass_rec (ofs + c) type p)

end

/-- `reg_pass`: how a value of the type is passed; an unnamed argument and a value that is not
    one or two scalars goes in integer registers. -/
def reg_pass (type : CType) (named : Bool) : Pass :=
  let p := reg_pass_rec 0 type .start
  if p.n ≤ 0 ∨ named = false then
    let size := (type_size 8 type).1.toNat
    { n := ((size + 7) >>> 3 : Nat)
      prc1 := some RC_INT
      prc2 := some RC_INT
      fieldofs1 := (if size ≤ 1 then VT_BYTE else if size ≤ 2 then VT_SHORT
        else if size ≤ 4 then VT_INT else VT_LLONG).code
      fieldofs2 := 8 <<< 4 ||| (if size ≤ 9 then VT_BYTE else if size ≤ 10 then VT_SHORT
        else if size ≤ 12 then VT_INT else VT_LLONG).code }
  else p

/-- An argument of a call: its type, that of a pointer for an array, and whether the prototype has
    a parameter for it. The alignment is a power of two that divides the size, as in every layout. -/
structure CallArg where
  type : CType
  named : Bool
  align_pow : ∃ k, (type_size 8 type).2 = 2 ^ k
  align_dvd : (type_size 8 type).2 ∣ (type_size 8 type).1.toNat

def CallArg.size (a : CallArg) : Nat := (type_size 8 a.type).1.toNat

def CallArg.align (a : CallArg) : Nat := (type_size 8 a.type).2

/-- The counters of the first loop of `gfunc_call`. -/
structure Counters where
  areg : Nat
  freg : Nat
  stack_adj : Nat
  tempspace : Nat
  deriving DecidableEq, Repr

def Counters.start : Counters := ⟨0, 8, 0, 0⟩

/-- `areg[rc - 1]` -/
def Counters.reg (s : Counters) (rc : Option RegClass) : Nat :=
  if rc = some RC_FLOAT then s.freg else s.areg

/-- `areg[rc - 1]++` -/
def Counters.take (s : Counters) (rc : Option RegClass) : Counters :=
  if rc = some RC_FLOAT then { s with freg := s.freg + 1 } else { s with areg := s.areg + 1 }

/-- `align < XLEN ? XLEN : align` -/
def xalign (align : Nat) : Nat := if align < 8 then 8 else align

/-- The condition under which an argument goes on the stack. -/
def on_stack (p : Pass) (s : Counters) : Prop :=
  (p.prc1 = some RC_INT ∧ s.areg ≥ 8) ∨ (p.prc1 = some RC_FLOAT ∧ s.freg ≥ 16) ∨
    (p.n = 2 ∧ p.prc1 = some RC_FLOAT ∧ p.prc2 = some RC_FLOAT ∧ s.freg ≥ 15) ∨
    (p.n = 2 ∧ p.prc1 ≠ p.prc2 ∧ (s.freg ≥ 16 ∨ s.areg ≥ 8))

instance (p : Pass) (s : Counters) : Decidable (on_stack p s) := inferInstanceAs (Decidable (_ ∨ _))

/-- An argument of more than two words is passed by reference: room for its copy is taken from
    the temporaries. The size and alignment are those of what is passed. -/
structure Passed where
  size : Nat
  align : Nat
  byref : BitVec 32
  tempspace : Nat

def pass_by_reference (a : CallArg) (tempspace : Nat) : Passed :=
  if a.size > 16 then
    let tempofs := align_up (xalign a.align) tempspace
    ⟨8, 8, 64#32 ||| BitVec.ofNat 32 tempofs <<< 7, tempofs + a.size⟩
  else ⟨a.size, a.align, 0#32, tempspace⟩

/-- The first loop of `gfunc_call` for one argument: its `info`, or `none` for an assertion. -/
def size_arg (a : CallArg) (s : Counters) : Option (BitVec 32 × Counters) :=
  let v := pass_by_reference a s.tempspace
  let s := { s with tempspace := v.tempspace }
  let p := reg_pass a.type a.named
  let s := if a.named = false ∧ v.align = 16 ∧ v.size ≤ 16 then
    { s with areg := (s.areg + 1) / 2 * 2 } else s
  if v.size = 0 then some (0#32 ||| v.byref, s)
  else if on_stack p s then
    let s := { s with stack_adj := s.stack_adj + align_up (xalign v.align) v.size }
    some (32#32 ||| v.byref, if a.named then s else { s with areg := 8, freg := 16 })
  else
    let info := BitVec.ofNat 32 (s.reg p.prc1)
    let s := s.take p.prc1
    let info := if v.byref = 0#32 then info ||| BitVec.ofNat 32 (p.fieldofs1 % 16) <<< 12 else info
    if p.fieldofs1 >>> 4 ≠ 0 then none
    else if p.n = 2 then
      let (info, s) :=
        if p.prc2 = some RC_FLOAT ∨ s.areg < 8 then
          (info ||| BitVec.ofNat 32 (1 + s.reg p.prc2) <<< 7, s.take p.prc2)
        else (info ||| 16#32, { s with stack_adj := s.stack_adj + 8 })
      if v.byref = 0#32 then
        if p.fieldofs2 >>> 4 < 2048 then
          some (info ||| BitVec.ofNat 32 p.fieldofs2 <<< 16 ||| v.byref, s)
        else none
      else some (info ||| v.byref, s)
    else some (info ||| v.byref, s)

/-- The first loop of `gfunc_call`. -/
def size_args : List CallArg → Counters → Option (List (BitVec 32) × Counters)
  | [], s => some ([], s)
  | a :: as, s =>
    (size_arg a s).bind fun r => (size_args as r.2).map fun q => (r.1 :: q.1, q.2)

/-- The sizes that follow from the loop: of the outgoing arguments, and with the temporaries. -/
def Counters.adj (s : Counters) : Nat := align_up 16 s.stack_adj

def Counters.stack_add (s : Counters) : Nat := s.adj + align_up 16 s.tempspace

/-- The locals of the loop of `gfunc_call` that stores arguments, with the ranges stored to so
    far, as offsets from the lowered stack pointer. -/
structure Placing where
  ofs : Nat
  splitofs : Nat
  stores : List Region
  deriving DecidableEq, Repr

def Placing.start : Placing := ⟨0, 0, []⟩

/-- The copy of an argument that is passed by reference. -/
def byref_copy (stack_adj : Nat) (a : CallArg) (info : BitVec 32) : Region :=
  ⟨stack_adj + (info.sshiftRight 7).toInt, a.size, a.align⟩

/-- The loop of `gfunc_call` that stores arguments, for one argument; `none` for an assertion. -/
def place_arg (stack_adj : Nat) (a : CallArg) (info : BitVec 32) (s : Placing) : Option Placing :=
  if info &&& (64#32 ||| 32#32) ≠ 0#32 then
    let byref : Bool := info &&& 64#32 ≠ 0#32
    let s := if byref then { s with stores := s.stores ++ [byref_copy stack_adj a info] } else s
    let size := if byref then 8 else a.size
    let align := if byref then 8 else a.align
    if info &&& 32#32 ≠ 0#32 then
      let ofs := align_up (xalign align) s.ofs
      some { s with ofs := ofs + size, stores := s.stores ++ [⟨ofs, size, align⟩] }
    else some s
  else if info &&& 16#32 ≠ 0#32 then
    if s.splitofs ≠ 0 then none else some { s with splitofs := s.ofs, ofs := s.ofs + 8 }
  else some s

def place_args (stack_adj : Nat) : List (CallArg × BitVec 32) → Placing → Option Placing
  | [], s => some s
  | (a, info) :: as, s => (place_arg stack_adj a info s).bind (place_args stack_adj as)

/-- The second halves that the loop loading the registers stores, all at the same offset. -/
def split_stores (splitofs : Nat) (infos : List (BitVec 32)) : List Region :=
  (infos.filter fun info => info &&& 32#32 = 0#32 ∧ info &&& 16#32 ≠ 0#32).map fun _ =>
    ⟨splitofs, 8, 8⟩

/-- The size by which `gfunc_call` lowers the stack pointer and the ranges it stores to above
    it, `none` for an assertion. -/
def area_stores (args : List CallArg) : Option (Nat × List Region) :=
  (size_args args .start).bind fun r =>
    let placed := if r.2.stack_add = 0 then some .start else
      place_args r.2.adj (args.zip r.1) .start
    placed.map fun s => (r.2.stack_add, s.stores ++ split_stores s.splitofs r.1)

/-- Room that an argument takes in the area of the outgoing arguments. -/
inductive Use where
  | none
  | half
  | stacked (size align : Nat)
  deriving DecidableEq, Repr

/-- The counters when the place of an argument is chosen: an unnamed argument of two aligned
    words starts at an even register. -/
def Counters.even (s : Counters) (a : CallArg) (v : Passed) : Counters :=
  if a.named = false ∧ v.align = 16 ∧ v.size ≤ 16 then
    { s with areg := (s.areg + 1) / 2 * 2 } else s

/-- The room an argument takes: all of it when the registers of its classes have run out, half
    of it when they do after the first word. -/
def use (a : CallArg) (s : Counters) : Use :=
  let v := pass_by_reference a s.tempspace
  let p := reg_pass a.type a.named
  let s := s.even a v
  if v.size = 0 then .none
  else if on_stack p s then .stacked v.size v.align
  else if p.n = 2 ∧ p.prc2 ≠ some RC_FLOAT ∧ 8 ≤ (s.take p.prc1).areg then .half
  else .none

/-- The room that each of the arguments takes, in their order. -/
def uses : List CallArg → Counters → List Use
  | [], _ => []
  | a :: as, s => use a s :: ((size_arg a s).map fun r => uses as r.2).getD []

/-- The size in words of eight bytes. -/
def Use.words : Use → Nat
  | .none => 0
  | .half => 1
  | .stacked size align => align_up (xalign align) size / 8

/-- The number of words left out before 16-byte aligned arguments, when the first of the uses is
    at word `w`. -/
def skipped : List Use → Nat → Nat
  | [], _ => 0
  | .none :: us, w => skipped us w
  | .half :: us, w => skipped us (w + 1)
  | .stacked size align :: us, w =>
    (if align = 16 then w % 2 else 0) +
      skipped us (w + (if align = 16 then w % 2 else 0) + (Use.stacked size align).words)

/-- A half that follows arguments on the stack comes after a whole number of words; `ofs` is the
    end of what precedes the uses. -/
def HalvesAligned : List Use → Nat → Prop
  | [], _ => True
  | .none :: us, ofs => HalvesAligned us ofs
  | .half :: us, ofs => 8 ∣ ofs ∧ HalvesAligned us (ofs + 8)
  | .stacked size align :: us, ofs => HalvesAligned us (align_up (xalign align) ofs + size)

/-- What the arguments must be like for their area: the words left out for alignment are no more
    than what rounding the size to 16 bytes adds, a half comes at a whole word, and no type passed
    by reference has an alignment above that of the stack. -/
structure Suits (args : List CallArg) : Prop where
  padding : skipped (uses args .start) 0 ≤ ((uses args .start).map Use.words).sum % 2
  halves : HalvesAligned (uses args .start) 0
  copies : ∀ a ∈ args, 16 < a.size → a.align ≤ 16

end tcc.riscv64
