import Mathlib.Tactic.Common

/-! `compare_types` of `tccgen.c`, and the compatible types of C99. -/

namespace tcc.compat

def VT_BTYPE := 0x000f#32
def VT_VOID := 0#32
def VT_BYTE := 1#32
def VT_SHORT := 2#32
def VT_INT := 3#32
def VT_LLONG := 4#32
def VT_PTR := 5#32
def VT_FUNC := 6#32
def VT_STRUCT := 7#32
def VT_FLOAT := 8#32
def VT_DOUBLE := 9#32
def VT_LDOUBLE := 10#32
def VT_BOOL := 11#32
def VT_UNSIGNED := 0x0010#32
def VT_DEFSIGN := 0x0020#32
def VT_ARRAY := 0x0040#32
def VT_CONSTANT := 0x0100#32
def VT_VOLATILE := 0x0200#32
def VT_LONG := 0x0800#32
def VT_STORAGE := 0xf000#32
def VT_STRUCT_MASK := 0xfff00080#32
def VT_UNION := 0x00100007#32
def VT_ENUM := 0x00200000#32
def VT_TYPE := ~~~(VT_STORAGE ||| VT_STRUCT_MASK)

def IS_ENUM (t : BitVec 32) : Bool := t &&& VT_STRUCT_MASK == VT_ENUM

def FUNC_NEW := 1#32
def FUNC_OLD := 2#32
def FUNC_ELLIPSIS := 3#32

mutual

/-- A type word and the symbol that it refers to. -/
inductive CType
  | mk (t : BitVec 32) (ref : Sym)

/-- A symbol of a type with its address. The word `f` holds the attributes of a function,
  and for a name its scope. -/
inductive Sym
  | null
  | mk (addr : Nat) (c : Int) (f : BitVec 32) (type : CType) (next : Sym)

end

def CType.t : CType → BitVec 32
  | .mk t _ => t

def CType.ref : CType → Sym
  | .mk _ ref => ref

def Sym.addr : Sym → Nat
  | .null => 0
  | .mk addr _ _ _ _ => addr

def Sym.c : Sym → Int
  | .null => 0
  | .mk _ c _ _ _ => c

def Sym.f : Sym → BitVec 32
  | .null => 0
  | .mk _ _ f _ _ => f

/-- `f.func_call` -/
def func_call (f : BitVec 32) : BitVec 32 := f &&& 7#32

/-- `f.func_type` -/
def func_type (f : BitVec 32) : BitVec 32 := f >>> 3 &&& 3#32

/-- The words as they are compared, the first and the second. -/
def compared_words (t1 t2 : BitVec 32) (unqualified : Bool) : BitVec 32 × BitVec 32 :=
  let t1 := t1 &&& VT_TYPE
  let t2 := t2 &&& VT_TYPE
  let (t1, t2) :=
    if unqualified then (t1 &&& ~~~(VT_CONSTANT ||| VT_VOLATILE),
      t2 &&& ~~~(VT_CONSTANT ||| VT_VOLATILE)) else (t1, t2)
  if t1 &&& VT_BTYPE ≠ VT_BYTE then (t1 &&& ~~~VT_DEFSIGN, t2 &&& ~~~VT_DEFSIGN) else (t1, t2)

/-- The checks before the loop of `is_compatible_func`. -/
def is_compatible_call (f1 f2 : BitVec 32) : Bool :=
  func_call f1 == func_call f2 &&
    !(func_type f1 != func_type f2 && func_type f1 != FUNC_OLD && func_type f2 != FUNC_OLD)

mutual

def compare_types : CType → CType → Bool → Bool
  | .mk u1 ref1, .mk u2 ref2, unqualified =>
    let (t1, t2) := compared_words u1 u2 unqualified
    if t1 ≠ t2 then false
    else if t1 &&& VT_ARRAY ≠ 0#32 ∧ ¬ (ref1.c < 0 ∨ ref2.c < 0 ∨ ref1.c = ref2.c) then false
    else
      let bt1 := t1 &&& VT_BTYPE
      if bt1 = VT_PTR then
        match ref1, ref2 with
        | .mk _ _ _ type1 _, .mk _ _ _ type2 _ => compare_types type1 type2 false
        | _, _ => false
      else if bt1 = VT_STRUCT then ref1.addr == ref2.addr
      else if bt1 = VT_FUNC then is_compatible_call ref1.f ref2.f && is_compatible_loop ref1 ref2
      else if IS_ENUM u1 && IS_ENUM u2 then ref1.addr == ref2.addr
      else true
termination_by structural type1 => type1

/-- The loop of `is_compatible_func`: the type of the result, then of each parameter. -/
def is_compatible_loop : Sym → Sym → Bool
  | .mk _ _ f1 type1 next1, .mk _ _ f2 type2 next2 =>
    if !compare_types type1 type2 true then false
    else if func_type f1 = FUNC_OLD ∨ func_type f2 = FUNC_OLD then true
    else
      match next1, next2 with
      | .null, .null => true
      | .null, _ => false
      | _, .null => false
      | _, _ => is_compatible_loop next1 next2
  | _, _ => false
termination_by structural s1 => s1

end

def is_compatible_func (type1 type2 : CType) : Bool :=
  is_compatible_call type1.ref.f type2.ref.f && is_compatible_loop type1.ref type2.ref

section types

/-- The arithmetic types that are not enumerated. -/
inductive Arith
  | bool | char | schar | uchar | short | ushort | int | uint | long | ulong | llong | ullong | float | double | ldouble
deriving DecidableEq

/-- The integer type of an enumeration: `int`, `unsigned`, or one that holds larger values. -/
inductive EnumType
  | int | uint | wide | uwide
deriving DecidableEq

structure Quals where
  constant : Bool
  volatile : Bool
deriving DecidableEq

def Quals.none : Quals := ⟨false, false⟩

/-- What a target and the options choose. -/
structure Target where
  LONG_SIZE_8 : Bool
  USING_DOUBLE_FOR_LDOUBLE : Bool
  char_is_unsigned : Bool
deriving DecidableEq

/-- A type without its qualifiers and without the types that it is built from. -/
inductive Head
  | void
  | arith (a : Arith) (explicit : Bool)
  | enum (e : EnumType)
  | ptr | array | struct | union | func
deriving DecidableEq

mutual

/-- The types of C: `explicit` is `signed` in `signed int`, a tag is a declaration of a structure,
  a union or an
enumeration. -/
inductive Ty
  | void (q : Quals)
  | arith (q : Quals) (a : Arith) (explicit : Bool)
  | enum (q : Quals) (tag : Nat)
  | ptr (q : Quals) (pointed : Ty)
  | array (n : Option Nat) (elem : Ty)
  | record (q : Quals) (tag : Nat)
  | func (ret : Ty) (params : Params) (dots : Bool)

/-- The parameters of a prototype, each with the word `f` of its symbol: the scope of a name, or zero. -/
inductive Params
  | nil
  | cons (f : BitVec 32) (type : Ty) (rest : Params)

end

end types

section representation

def Quals.bits (q : Quals) : BitVec 32 :=
  (if q.constant then VT_CONSTANT else 0#32) ||| (if q.volatile then VT_VOLATILE else 0#32)

/-- The words that `parse_btype` makes of the arithmetic types. -/
def Arith.word (tgt : Target) (explicit : Bool) : Arith → BitVec 32
  | .bool => VT_BOOL
  | .char => VT_BYTE ||| (if tgt.char_is_unsigned then VT_UNSIGNED else 0#32)
  | .schar => VT_BYTE ||| VT_DEFSIGN
  | .uchar => VT_BYTE ||| VT_DEFSIGN ||| VT_UNSIGNED
  | .short => VT_SHORT ||| signed
  | .ushort => VT_SHORT ||| VT_DEFSIGN ||| VT_UNSIGNED
  | .int => VT_INT ||| signed
  | .uint => VT_INT ||| VT_DEFSIGN ||| VT_UNSIGNED
  | .long => long ||| signed
  | .ulong => long ||| VT_DEFSIGN ||| VT_UNSIGNED
  | .llong => VT_LLONG ||| signed
  | .ullong => VT_LLONG ||| VT_DEFSIGN ||| VT_UNSIGNED
  | .float => VT_FLOAT
  | .double => VT_DOUBLE
  | .ldouble => if tgt.USING_DOUBLE_FOR_LDOUBLE then VT_DOUBLE ||| VT_LONG else VT_LDOUBLE
where
  signed := if explicit then VT_DEFSIGN else 0#32
  long := (if tgt.LONG_SIZE_8 then VT_LLONG else VT_INT) ||| VT_LONG

/-- The words that `struct_decl` makes of the enumerations. -/
def EnumType.word (tgt : Target) : EnumType → BitVec 32
  | .int => VT_INT ||| VT_ENUM
  | .uint => VT_INT ||| VT_UNSIGNED ||| VT_ENUM
  | .wide => wide ||| VT_ENUM
  | .uwide => wide ||| VT_UNSIGNED ||| VT_ENUM
where
  wide := if tgt.LONG_SIZE_8 then VT_LLONG ||| VT_LONG else VT_LLONG

def EnumType.arith (tgt : Target) : EnumType → Arith
  | .int => .int
  | .uint => .uint
  | .wide => if tgt.LONG_SIZE_8 then .long else .llong
  | .uwide => if tgt.LONG_SIZE_8 then .ulong else .ullong

def Head.word (tgt : Target) : Head → BitVec 32
  | .void => VT_VOID
  | .arith a explicit => a.word tgt explicit
  | .enum e => e.word tgt
  | .ptr => VT_PTR
  | .array => VT_PTR ||| VT_ARRAY
  | .struct => VT_STRUCT
  | .union => VT_UNION
  | .func => VT_FUNC

/-- `convert_parameter_type` -/
def convert_parameter_type (pt : CType) (addr : Nat) : CType :=
  let t := pt.t &&& ~~~(VT_CONSTANT ||| VT_VOLATILE) &&& ~~~VT_ARRAY
  if t &&& VT_BTYPE = VT_FUNC then .mk (VT_PTR ||| (t &&& VT_STORAGE))
    (.mk addr (-1) 0#32 (.mk t pt.ref) .null)
  else .mk t pt.ref

/-- What the declarations of the tags are: the integer types of enumerations,
  and which of the others are unions. -/
structure Tags where
  enum_type : Nat → EnumType
  union : Nat → Bool

variable (tgt : Target) (tags : Tags)

def Ty.head : Ty → Head
  | .void _ => .void
  | .arith _ a explicit => .arith a explicit
  | .enum _ tag => .enum (tags.enum_type tag)
  | .ptr _ _ => .ptr
  | .array _ _ => .array
  | .record _ tag => if tags.union tag then .union else .struct
  | .func _ _ _ => .func

def Ty.quals : Ty → Quals
  | .void q | .arith q _ _ | .enum q _ | .ptr q _ | .record q _ => q
  | .array _ _ | .func _ _ _ => Quals.none

/-- A word with the bits of a type; the storage bits are any. -/
def Ty.HasWord (T : Ty) (t : BitVec 32) : Prop :=
  t &&& ~~~VT_STORAGE = (T.head tags).word tgt ||| T.quals.bits

mutual

/-- The types of the compiler that stand for a type of C. -/
def Ty.Represents : Ty → CType → Prop
  | .void q, c => (Ty.void q).HasWord tgt tags c.t
  | .arith q a explicit, c => (Ty.arith q a explicit).HasWord tgt tags c.t
  | .enum q tag, c => (Ty.enum q tag).HasWord tgt tags c.t ∧ c.ref.addr = tag
  | .record q tag, c => (Ty.record q tag).HasWord tgt tags c.t ∧ c.ref.addr = tag
  | .ptr q pointed, c =>
    (Ty.ptr q pointed).HasWord tgt tags c.t ∧ ∃ addr n f type next, c.ref = .mk addr n f type next ∧
    pointed.Represents type
  | .array n elem, c =>
    (Ty.array n elem).HasWord tgt tags c.t ∧ ∃ addr f type next,
      c.ref = .mk addr (n.elim (-1) Int.ofNat) f type next ∧ elem.Represents type
  | .func ret params dots, c =>
    (Ty.func ret params dots).HasWord tgt tags c.t ∧ ∃ addr n f type next,
      c.ref = .mk addr n f (.mk (type.t &&& ~~~VT_CONSTANT) type.ref) next ∧ func_call f = 0#32 ∧
        func_type f = (if dots then FUNC_ELLIPSIS else FUNC_NEW) ∧ ret.Represents type ∧
          params.Represents next

def Params.Represents : Params → Sym → Prop
  | .nil, s => s = .null
  | .cons f type rest, s =>
    ∃ addr addr' n pt next, s = .mk addr n f (convert_parameter_type pt addr') next ∧ type.Represents pt ∧
      rest.Represents next

end

end representation

section words

/-- What is left of a type word that is compared, without its qualifiers. -/
inductive Key
  | void
  | arith (a : Arith)
  | ptr | array | record | func
deriving DecidableEq

def Head.key (tgt : Target) : Head → Key
  | .void => .void
  | .arith a _ => .arith a
  | .enum e => .arith (e.arith tgt)
  | .ptr => .ptr
  | .array => .array
  | .struct => .record
  | .union => .record
  | .func => .func

/-- A word as it is compared. -/
def compared (t : BitVec 32) (unqualified : Bool) : BitVec 32 :=
  let t := t &&& VT_TYPE
  let t := if unqualified then t &&& ~~~(VT_CONSTANT ||| VT_VOLATILE) else t
  if t &&& VT_BTYPE ≠ VT_BYTE then t &&& ~~~VT_DEFSIGN else t

def Key.word (tgt : Target) : Key → BitVec 32
  | .void => compared VT_VOID true
  | .arith a => compared (a.word tgt false) true
  | .ptr => compared VT_PTR true
  | .array => compared (VT_PTR ||| VT_ARRAY) true
  | .record => compared VT_STRUCT true
  | .func => compared VT_FUNC true

def Arith.all : List Arith :=
  [.bool, .char, .schar, .uchar, .short, .ushort, .int, .uint, .long, .ulong, .llong, .ullong, .float,
    .double, .ldouble]

def Head.all : List Head :=
  [.void, .ptr, .array, .struct, .union, .func, .enum .int, .enum .uint, .enum .wide, .enum .uwide] ++
    Arith.all.flatMap fun a => [.arith a false, .arith a true]

def Key.all : List Key := [.void, .ptr, .array, .record, .func] ++ Arith.all.map .arith

def Quals.all : List Quals := [⟨false, false⟩, ⟨false, true⟩, ⟨true, false⟩, ⟨true, true⟩]

def Target.all : List Target :=
  [true, false].flatMap fun l => [true, false].flatMap fun d => [true, false].map fun c => ⟨l, d, c⟩

theorem Arith.mem_all (a : Arith) : a ∈ Arith.all := by cases a <;> decide

theorem Head.mem_all (h : Head) : h ∈ Head.all := by
  cases h with
  | arith a explicit =>
    refine List.mem_append_right _ (List.mem_flatMap.mpr ⟨a, a.mem_all, ?_⟩)
    cases explicit
    · exact List.mem_cons_self
    · exact List.mem_cons_of_mem _ List.mem_cons_self
  | enum e => cases e <;> decide
  | _ => decide

theorem Key.mem_all (k : Key) : k ∈ Key.all := by
  cases k with
  | arith a => exact List.mem_append_right _ (List.mem_map_of_mem a.mem_all)
  | _ => decide

theorem Quals.mem_all (q : Quals) : q ∈ Quals.all := by
  obtain ⟨constant, volatile⟩ := q
  cases constant <;> cases volatile <;> decide

theorem Target.mem_all (tgt : Target) : tgt ∈ Target.all := by
  obtain ⟨l, d, c⟩ := tgt
  cases l <;> cases d <;> cases c <;> decide

/-- An array that is a parameter is a pointer. -/
def Head.parameter : Head → Head
  | .array => .ptr
  | h => h

/-- What the masks leave of the word of a type. -/
def word_ok (tgt : Target) (h : Head) (q : Quals) : Bool :=
  let t := h.word tgt ||| q.bits
  t &&& ~~~VT_CONSTANT == h.word tgt ||| ({ q with constant := false } : Quals).bits &&
    t &&& ~~~(VT_CONSTANT ||| VT_VOLATILE) == h.word tgt &&
    compared t false == (h.key tgt).word tgt ||| q.bits &&
    compared t true == (h.key tgt).word tgt &&
    IS_ENUM t == (match h with | .enum _ => true | _ => false) &&
    (t &&& ~~~(VT_CONSTANT ||| VT_VOLATILE) &&& ~~~VT_ARRAY == h.parameter.word tgt &&
      (h.parameter.word tgt &&& VT_BTYPE == VT_FUNC) == (h == .func))

theorem word_ok_all : ∀ tgt ∈ Target.all, ∀ h ∈ Head.all, ∀ q ∈ Quals.all, word_ok tgt h q = true := by
  decide

theorem key_word_inj_all : ∀ tgt ∈ Target.all, ∀ k ∈ Key.all, ∀ k' ∈ Key.all, k.word tgt = k'.word tgt →
    k = k' := by
  decide

/-- The qualifiers, and the tests of a compared word. -/
theorem key_word_tests_all : ∀ tgt ∈ Target.all, ∀ k ∈ Key.all, ∀ q ∈ Quals.all,
    ((k.word tgt ||| q.bits) &&& (VT_CONSTANT ||| VT_VOLATILE) = q.bits ∧
      (k.word tgt ||| q.bits) &&& ~~~(VT_CONSTANT ||| VT_VOLATILE) = k.word tgt) ∧
    ((k.word tgt ||| q.bits) &&& VT_ARRAY ≠ 0#32 ↔ k = .array) ∧
    ((k.word tgt ||| q.bits) &&& VT_BTYPE = VT_PTR ↔ k = .ptr ∨ k = .array) ∧
    ((k.word tgt ||| q.bits) &&& VT_BTYPE = VT_STRUCT ↔ k = .record) ∧
    ((k.word tgt ||| q.bits) &&& VT_BTYPE = VT_FUNC ↔ k = .func) := by
  decide

theorem bits_inj {q q' : Quals} (h : q.bits = q'.bits) : q = q' := by
  obtain ⟨c, v⟩ := q
  obtain ⟨c', v'⟩ := q'
  cases c <;> cases v <;> cases c' <;> cases v' <;> first | rfl | exact absurd h (by decide)

end words

section masks

variable {tgt : Target} {tags : Tags} {T T1 T2 : Ty} {t t1 t2 : BitVec 32} {unqualified : Bool}

theorem compared_words_fst (t1 t2 : BitVec 32) (unqualified : Bool) :
    (compared_words t1 t2 unqualified).1 = compared t1 unqualified := by
  unfold compared_words compared
  cases unqualified <;> simp only [Bool.false_eq_true, if_false, if_true] <;> split <;> rfl

/-- Whether the signs are compared is decided by the first word; the second one is of the same basic type or differs. -/
theorem compared_words_iff (t1 t2 : BitVec 32) (unqualified : Bool) :
    (compared_words t1 t2 unqualified).1 = (compared_words t1 t2 unqualified).2 ↔
      compared t1 unqualified = compared t2 unqualified := by
  have hbtype (x : BitVec 32) : x &&& ~~~VT_DEFSIGN &&& VT_BTYPE = x &&& VT_BTYPE := by
    rw [BitVec.and_assoc]
    rfl
  have hmask (a b : BitVec 32) :
      (if a &&& VT_BTYPE ≠ VT_BYTE then a &&& ~~~VT_DEFSIGN = b &&& ~~~VT_DEFSIGN else a = b) ↔
        (if a &&& VT_BTYPE ≠ VT_BYTE then a &&& ~~~VT_DEFSIGN else a) =
          (if b &&& VT_BTYPE ≠ VT_BYTE then b &&& ~~~VT_DEFSIGN else b) := by
    by_cases ha : a &&& VT_BTYPE = VT_BYTE <;> by_cases hb : b &&& VT_BTYPE = VT_BYTE
    · simp only [ha, hb, ne_eq, not_true_eq_false, if_false]
    · simp only [ha, hb, ne_eq, not_true_eq_false, not_false_eq_true, if_false, if_true]
      constructor
      · rintro rfl
        exact absurd ha hb
      · intro heq
        rw [heq, hbtype] at ha
        exact absurd ha hb
    · simp only [ha, hb, ne_eq, not_true_eq_false, not_false_eq_true, if_false, if_true]
      constructor
      · intro heq
        have hsame := congrArg (· &&& VT_BTYPE) heq
        simp only [hbtype] at hsame
        exact absurd (hsame.trans hb) ha
      · intro heq
        rw [← heq, hbtype] at hb
        exact absurd hb ha
    · simp only [ha, hb, ne_eq, not_false_eq_true, if_true]
  unfold compared_words compared
  cases unqualified <;> simp only [Bool.false_eq_true, if_false, if_true] <;> rw [← hmask] <;> split <;> rfl

theorem word_facts (tgt : Target) (h : Head) (q : Quals) : word_ok tgt h q = true :=
  word_ok_all tgt tgt.mem_all h h.mem_all q q.mem_all

/-- The bits that are left of the qualifiers. -/
def left (unqualified : Bool) (q : Quals) : Quals := if unqualified then Quals.none else q

theorem Ty.HasWord.compared_eq (h : T.HasWord tgt tags t) (unqualified : Bool) :
    compared t unqualified = ((T.head tags).key tgt).word tgt ||| (left unqualified T.quals).bits := by
  have hstorage : compared t unqualified = compat.compared (t &&& ~~~VT_STORAGE) unqualified := by
    unfold compat.compared
    rw [BitVec.and_assoc t]
    rfl
  have hok := word_facts tgt (T.head tags) T.quals
  simp only [word_ok, Bool.and_eq_true, beq_iff_eq] at hok
  rw [hstorage, h]
  cases unqualified with
  | false => exact hok.1.1.1.2
  | true =>
    rw [hok.1.1.2, left, if_pos rfl]
    exact (BitVec.or_zero ..).symm

theorem Ty.HasWord.is_enum (h : T.HasWord tgt tags t) :
    IS_ENUM t = (match T.head tags with | .enum _ => true | _ => false) := by
  have hstorage : IS_ENUM t = IS_ENUM (t &&& ~~~VT_STORAGE) := by
    unfold IS_ENUM
    rw [BitVec.and_assoc t]
    rfl
  have hok := word_facts tgt (T.head tags) T.quals
  simp only [word_ok, Bool.and_eq_true, beq_iff_eq] at hok
  rw [hstorage, h]
  exact hok.1.2

theorem left_eq_iff (q q' : Quals) : left unqualified q = left unqualified q' ↔ unqualified = true ∨
    q = q' := by
  cases unqualified <;> simp [left]

/-- The compared words of two types. -/
theorem Ty.HasWord.eq_iff (h1 : T1.HasWord tgt tags t1) (h2 : T2.HasWord tgt tags t2) :
    compat.compared t1 unqualified = compat.compared t2 unqualified ↔
      (T1.head tags).key tgt = (T2.head tags).key tgt ∧ (unqualified = true ∨ T1.quals = T2.quals) := by
  rw [h1.compared_eq, h2.compared_eq, ← left_eq_iff]
  generalize (T1.head tags).key tgt = k1
  generalize (T2.head tags).key tgt = k2
  generalize left unqualified T1.quals = q1
  generalize left unqualified T2.quals = q2
  obtain ⟨⟨hquals1, hkey1⟩, -⟩ := key_word_tests_all tgt tgt.mem_all k1 k1.mem_all q1 q1.mem_all
  obtain ⟨⟨hquals2, hkey2⟩, -⟩ := key_word_tests_all tgt tgt.mem_all k2 k2.mem_all q2 q2.mem_all
  constructor
  · intro heq
    rw [heq] at hquals1 hkey1
    exact ⟨key_word_inj_all tgt tgt.mem_all k1 k1.mem_all k2 k2.mem_all (hkey1.symm.trans hkey2),
      bits_inj (hquals1.symm.trans hquals2)⟩
  · rintro ⟨rfl, rfl⟩
    rfl

/-- What is compared of the types that two symbols are of. -/
def pointed_compatible : Sym → Sym → Bool
  | .mk _ _ _ type1 _, .mk _ _ _ type2 _ => compare_types type1 type2 false
  | _, _ => false

/-- The rest of the comparison for types with the same word. -/
def rest_compatible (k : Key) (c1 c2 : CType) : Prop :=
  match k with
  | .ptr => pointed_compatible c1.ref c2.ref = true
  | .array =>
    (c1.ref.c < 0 ∨ c2.ref.c < 0 ∨ c1.ref.c = c2.ref.c) ∧ pointed_compatible c1.ref c2.ref = true
  | .record => c1.ref.addr = c2.ref.addr
  | .func => is_compatible_func c1 c2 = true
  | _ => IS_ENUM c1.t = true → IS_ENUM c2.t = true → c1.ref.addr = c2.ref.addr

theorem compare_types_eq (c1 c2 : CType) (unqualified : Bool) :
    compare_types c1 c2 unqualified =
      if (compared_words c1.t c2.t unqualified).1 ≠ (compared_words c1.t c2.t unqualified).2 then false
      else if (compared_words c1.t c2.t unqualified).1 &&& VT_ARRAY ≠ 0#32 ∧
        ¬ (c1.ref.c < 0 ∨ c2.ref.c < 0 ∨ c1.ref.c = c2.ref.c) then false
      else if (compared_words c1.t c2.t unqualified).1 &&& VT_BTYPE = VT_PTR then pointed_compatible c1.ref c2.ref
      else if (compared_words c1.t c2.t unqualified).1 &&& VT_BTYPE = VT_STRUCT then c1.ref.addr == c2.ref.addr
      else if (compared_words c1.t c2.t unqualified).1 &&& VT_BTYPE = VT_FUNC then is_compatible_func c1 c2
      else if IS_ENUM c1.t && IS_ENUM c2.t then c1.ref.addr == c2.ref.addr
      else true := by
  obtain ⟨u1, ref1⟩ := c1
  obtain ⟨u2, ref2⟩ := c2
  cases ref1 <;> cases ref2 <;> rfl

/-- One step of the comparison. -/
theorem compare_types_iff_rest {c1 c2 : CType} (h1 : T1.HasWord tgt tags c1.t)
    (h2 : T2.HasWord tgt tags c2.t) :
    compare_types c1 c2 unqualified = true ↔
      ((T1.head tags).key tgt = (T2.head tags).key tgt ∧ (unqualified = true ∨ T1.quals = T2.quals)) ∧
        rest_compatible ((T1.head tags).key tgt) c1 c2 := by
  rw [compare_types_eq, ← h1.eq_iff h2, ← compared_words_iff]
  have hfst := compared_words_fst c1.t c2.t unqualified
  rw [h1.compared_eq] at hfst
  by_cases hword : (compared_words c1.t c2.t unqualified).1 = (compared_words c1.t c2.t unqualified).2
  · rw [if_neg (not_not_intro hword), and_iff_right hword]
    obtain ⟨-, harray, hptr, hstruct, hfunc⟩ := key_word_tests_all tgt tgt.mem_all ((T1.head tags).key tgt)
      ((T1.head tags).key tgt).mem_all (left unqualified T1.quals) (Quals.mem_all _)
    rw [← hfst] at harray hptr hstruct hfunc
    simp only [harray, hptr, hstruct, hfunc]
    unfold rest_compatible
    cases (T1.head tags).key tgt with
    | array =>
      by_cases hcount : c1.ref.c < 0 ∨ c2.ref.c < 0 ∨ c1.ref.c = c2.ref.c
      · simp [hcount]
      · simp [hcount]
    | ptr | record | func => simp
    | void | arith a => cases IS_ENUM c1.t <;> cases IS_ENUM c2.t <;> simp
  · rw [if_pos hword]
    simp [hword]

end masks

section compatible

/-- The unqualified version of a type. The qualifiers of an array are those of its elements. -/
def Ty.unqualified : Ty → Ty
  | .void _ => .void Quals.none
  | .arith _ a explicit => .arith Quals.none a explicit
  | .enum _ tag => .enum Quals.none tag
  | .ptr _ T => .ptr Quals.none T
  | .record _ tag => .record Quals.none tag
  | T => T

/-- The type of a parameter: an array or a function is adjusted to a pointer,
  and the qualifiers are left out. -/
def Ty.adjusted : Ty → Ty
  | .array _ T => .ptr Quals.none T
  | .func ret params dots => .ptr Quals.none (.func ret params dots)
  | T => T.unqualified

/-- The type of a result that is compared: as it is, or its unqualified version. -/
def Ty.returned (strict : Bool) (T : Ty) : Ty := if strict then T else T.unqualified

variable (strict : Bool) (tgt : Target) (tags : Tags)

mutual

/-- The types that C99 has as compatible, for `strict`; otherwise the qualifiers of results are left out. -/
inductive Compatible : Ty → Ty → Prop
  | void (q : Quals) : Compatible (.void q) (.void q)
  | arith (q : Quals) (a : Arith) (e e' : Bool) : Compatible (.arith q a e) (.arith q a e')
  | enum (q : Quals) (tag : Nat) : Compatible (.enum q tag) (.enum q tag)
  | enum_arith (q : Quals) (tag : Nat) (e : Bool) :
    Compatible (.enum q tag) (.arith q ((tags.enum_type tag).arith tgt) e)
  | arith_enum (q : Quals) (tag : Nat) (e : Bool) :
    Compatible (.arith q ((tags.enum_type tag).arith tgt) e) (.enum q tag)
  | record (q : Quals) (tag : Nat) : Compatible (.record q tag) (.record q tag)
  | ptr (q : Quals) {T T' : Ty} : Compatible T T' → Compatible (.ptr q T) (.ptr q T')
  | array {n n' : Option Nat} {T T' : Ty} : Compatible T T' → (∀ m ∈ n, ∀ m' ∈ n', m = m') →
    Compatible (.array n T) (.array n' T')
  | func (dots : Bool) {ret ret' : Ty} {params params' : Params} : Compatible (ret.returned strict)
    (ret'.returned strict) →
    CompatibleParams params params' → Compatible (.func ret params dots) (.func ret' params' dots)

inductive CompatibleParams : Params → Params → Prop
  | nil : CompatibleParams .nil .nil
  | cons (f f' : BitVec 32) {T T' : Ty} {rest rest' : Params} : Compatible T.adjusted T'.adjusted →
    CompatibleParams rest rest' → CompatibleParams (.cons f T rest) (.cons f' T' rest')

end

mutual

/-- No word of a parameter's scope reads as `FUNC_OLD`. -/
def Ty.Clear : Ty → Prop
  | .ptr _ T => T.Clear
  | .array _ T => T.Clear
  | .func ret params _ => ret.Clear ∧ params.Clear
  | _ => True

def Params.Clear : Params → Prop
  | .nil => True
  | .cons f T rest => func_type f ≠ FUNC_OLD ∧ T.Clear ∧ rest.Clear

end

mutual

/-- The nesting of a type; a parameter counts one more, for the pointer that it may become. -/
def Ty.weight : Ty → Nat
  | .ptr _ T => T.weight + 1
  | .array _ T => T.weight + 1
  | .func ret params _ => ret.weight + params.weight + 1
  | _ => 0

def Params.weight : Params → Nat
  | .nil => 0
  | .cons _ T rest => T.weight + rest.weight + 2

end

end compatible

section agreement

variable {tgt : Target} {tags : Tags} {strict : Bool} {T T1 T2 : Ty} {c c1 c2 : CType}

/-- A type or its unqualified version. -/
def Ty.top (unqualified : Bool) (T : Ty) : Ty := if unqualified then T.unqualified else T

theorem Compatible.key_eq (h : Compatible strict tgt tags T1 T2) :
    (T1.head tags).key tgt = (T2.head tags).key tgt ∧ T1.quals = T2.quals := by
  cases h with
  | record q tag => exact ⟨rfl, rfl⟩
  | _ => exact ⟨rfl, rfl⟩

theorem Ty.key_record (q : Quals) (tag : Nat) : ((Ty.record q tag).head tags).key tgt = .record := by
  change Head.key tgt (if tags.union tag then .union else .struct) = .record
  split <;> rfl

theorem Ty.key_top (unqualified : Bool) (T : Ty) : ((T.top unqualified).head tags).key tgt =
    (T.head tags).key tgt := by
  cases unqualified with
  | false => rfl
  | true => cases T <;> rfl

theorem Ty.quals_top (unqualified : Bool) (T : Ty) :
    (T.top unqualified).quals = left unqualified T.quals := by
  cases unqualified with
  | false => rfl
  | true => cases T <;> rfl

theorem Ty.Represents.word (h : T.Represents tgt tags c) : T.HasWord tgt tags c.t := by
  cases T with
  | void q => exact h
  | arith q a explicit => exact h
  | enum q tag => exact h.1
  | record q tag => exact h.1
  | ptr q T => exact h.1
  | array n T => exact h.1
  | func ret params dots => exact h.1

theorem and_swap (a b c : BitVec 32) : a &&& b &&& c = a &&& c &&& b := by
  rw [BitVec.and_assoc, BitVec.and_comm b, BitVec.and_assoc]

theorem Ty.HasWord.parameter {t : BitVec 32} (h : T.HasWord tgt tags t) :
    (t &&& ~~~(VT_CONSTANT ||| VT_VOLATILE) &&& ~~~VT_ARRAY) &&& ~~~VT_STORAGE =
    (T.head tags).parameter.word tgt ∧
      ((t &&& ~~~(VT_CONSTANT ||| VT_VOLATILE) &&& ~~~VT_ARRAY) &&& VT_BTYPE = VT_FUNC ↔
        T.head tags = .func) := by
  have hok := word_facts tgt (T.head tags) T.quals
  simp only [word_ok, Bool.and_eq_true, beq_iff_eq] at hok
  have hword : (t &&& ~~~(VT_CONSTANT ||| VT_VOLATILE) &&& ~~~VT_ARRAY) &&& ~~~VT_STORAGE =
      (T.head tags).parameter.word tgt := by
    rw [← hok.2.1, ← h, and_swap _ _ (~~~VT_STORAGE), and_swap t]
  refine ⟨hword, ?_⟩
  have hbtype : (t &&& ~~~(VT_CONSTANT ||| VT_VOLATILE) &&& ~~~VT_ARRAY) &&& VT_BTYPE =
      (T.head tags).parameter.word tgt &&& VT_BTYPE := by
    rw [← hword, BitVec.and_assoc _ (~~~VT_STORAGE)]
    rfl
  rw [hbtype]
  have hfunc := hok.2.2
  rw [Bool.eq_iff_iff, beq_iff_eq, beq_iff_eq] at hfunc
  exact hfunc

/-- The type of a parameter stands for the adjusted type. -/
theorem Ty.Represents.adjusted (h : T.Represents tgt tags c) (addr : Nat) :
    T.adjusted.Represents tgt tags (convert_parameter_type c addr) := by
  obtain ⟨hword, hfunc⟩ := h.word.parameter
  have hnone (x : BitVec 32) : x = x ||| Quals.none.bits := (BitVec.or_zero ..).symm
  unfold convert_parameter_type
  cases T with
  | func ret params dots =>
    rw [if_pos (hfunc.mpr rfl)]
    have hptr : (Ty.ptr Quals.none (.func ret params dots)).HasWord tgt tags
        (VT_PTR ||| (c.t &&& ~~~(VT_CONSTANT ||| VT_VOLATILE) &&& ~~~VT_ARRAY &&& VT_STORAGE)) := by
      change (VT_PTR ||| _ &&& VT_STORAGE) &&& ~~~VT_STORAGE = VT_PTR ||| Quals.none.bits
      rw [← hnone, BitVec.and_comm, BitVec.and_or_distrib_left, BitVec.and_comm _ (_ &&& VT_STORAGE),
        BitVec.and_assoc,
        show VT_STORAGE &&& ~~~VT_STORAGE = 0#32 from rfl, BitVec.and_zero, BitVec.or_zero]
      rfl
    exact ⟨hptr, addr, -1, 0#32, _, .null, rfl, hword.trans (hnone _), h.2⟩
  | array n T =>
    obtain ⟨addr', f, type, next, href, helem⟩ := h.2
    rw [if_neg (fun hf => nomatch hfunc.mp hf)]
    exact ⟨hword.trans (hnone _), addr', _, f, type, next, href, helem⟩
  | ptr q T =>
    rw [if_neg (fun hf => nomatch hfunc.mp hf)]
    exact ⟨hword.trans (hnone _), h.2⟩
  | void q =>
    rw [if_neg (fun hf => nomatch hfunc.mp hf)]
    exact hword.trans (hnone _)
  | arith q a explicit =>
    rw [if_neg (fun hf => nomatch hfunc.mp hf)]
    exact hword.trans (hnone _)
  | enum q tag =>
    rw [if_neg (fun hf => nomatch hfunc.mp hf)]
    exact ⟨hword.trans (hnone _), h.2⟩
  | record q tag =>
    have hparameter : ((Ty.record q tag).head tags).parameter = (Ty.record q tag).head tags ∧
        (Ty.record q tag).head tags ≠ .func := by
      change (Head.parameter (if tags.union tag then .union else .struct)) =
        (if tags.union tag then .union else .struct) ∧
        (if tags.union tag then Head.union else .struct) ≠ .func
      split <;> exact ⟨rfl, nofun⟩
    rw [hparameter.1] at hword
    rw [if_neg (fun hf => hparameter.2 (hfunc.mp hf))]
    exact ⟨hword.trans (hnone _), h.2⟩

/-- A type without `const`. -/
def Ty.without_const : Ty → Ty
  | .void q => .void { q with constant := false }
  | .arith q a explicit => .arith { q with constant := false } a explicit
  | .enum q tag => .enum { q with constant := false } tag
  | .ptr q T => .ptr { q with constant := false } T
  | .record q tag => .record { q with constant := false } tag
  | T => T

/-- The type of a result stands for the type without `const`. -/
theorem Ty.Represents.without_const (h : T.Represents tgt tags c) :
    T.without_const.Represents tgt tags (.mk (c.t &&& ~~~VT_CONSTANT) c.ref) := by
  have hok := word_facts tgt (T.head tags) T.quals
  simp only [word_ok, Bool.and_eq_true, beq_iff_eq] at hok
  have hword : c.t &&& ~~~VT_CONSTANT &&& ~~~VT_STORAGE =
      (T.head tags).word tgt ||| ({ T.quals with constant := false } : Quals).bits := by
    rw [← hok.1.1.1.1.1, ← h.word, and_swap]
  cases T with
  | void q => exact hword
  | arith q a explicit => exact hword
  | enum q tag => exact ⟨hword, h.2⟩
  | record q tag => exact ⟨hword, h.2⟩
  | ptr q T => exact ⟨hword, h.2⟩
  | array n T => exact ⟨hword, h.2⟩
  | func ret params dots => exact ⟨hword, h.2⟩

theorem Ty.top_without_const (T : Ty) : T.without_const.top true = T.top true := by cases T <;> rfl

theorem Ty.weight_without_const (T : Ty) : T.without_const.weight = T.weight := by cases T <;> rfl

theorem Ty.clear_without_const (h : T.Clear) : T.without_const.Clear := by cases T <;> exact h

theorem Ty.clear_adjusted (h : T.Clear) : T.adjusted.Clear := by cases T <;> exact h

theorem Ty.weight_adjusted (T : Ty) : T.adjusted.weight ≤ T.weight + 1 := by
  cases T with
  | array n T => exact Nat.le_succ _
  | func ret params dots => exact Nat.le_refl _
  | _ => exact Nat.le_succ _

theorem Ty.top_adjusted (T : Ty) : T.adjusted.top true = T.adjusted := by cases T <;> rfl

/-- What is left of two lists of parameters. -/
def params_compatible : Sym → Sym → Bool
  | .null, .null => true
  | .null, _ => false
  | _, .null => false
  | s1, s2 => is_compatible_loop s1 s2

theorem is_compatible_loop_mk (a1 a2 : Nat) (n1 n2 : Int) (f1 f2 : BitVec 32) (type1 type2 : CType)
    (next1 next2 : Sym) :
    is_compatible_loop (.mk a1 n1 f1 type1 next1) (.mk a2 n2 f2 type2 next2) =
      if !compare_types type1 type2 true then false
      else if func_type f1 = FUNC_OLD ∨ func_type f2 = FUNC_OLD then true
      else params_compatible next1 next2 := by
  cases next1 <;> cases next2 <;> rfl

/-- The loop without the exit for `FUNC_OLD`. -/
theorem is_compatible_loop_iff {a1 a2 : Nat} {n1 n2 : Int} {f1 f2 : BitVec 32} {type1 type2 :
    CType} {next1 next2 : Sym}
    (hf1 : func_type f1 ≠ FUNC_OLD) (hf2 : func_type f2 ≠ FUNC_OLD) :
    is_compatible_loop (.mk a1 n1 f1 type1 next1) (.mk a2 n2 f2 type2 next2) = true ↔
      compare_types type1 type2 true = true ∧ params_compatible next1 next2 = true := by
  rw [is_compatible_loop_mk, if_neg (not_or.mpr ⟨hf1, hf2⟩)]
  cases compare_types type1 type2 true <;> simp

theorem func_type_dots (dots : Bool) : (if dots then FUNC_ELLIPSIS else FUNC_NEW) ≠ FUNC_OLD := by
  cases dots <;> decide

theorem is_compatible_call_iff {f1 f2 : BitVec 32} {dots1 dots2 : Bool} (hc1 : func_call f1 = 0#32)
    (hc2 : func_call f2 = 0#32) (hf1 : func_type f1 = (if dots1 then FUNC_ELLIPSIS else FUNC_NEW))
    (hf2 : func_type f2 = (if dots2 then FUNC_ELLIPSIS else FUNC_NEW)) :
    is_compatible_call f1 f2 = true ↔ dots1 = dots2 := by
  unfold is_compatible_call
  rw [hc1, hc2, hf1, hf2]
  cases dots1 <;> cases dots2 <;> decide

section tops

variable (unqualified : Bool)

theorem top_void (q : Quals) : (Ty.void q).top unqualified = .void (left unqualified q) := by
  cases unqualified <;> rfl

theorem top_arith (q : Quals) (a : Arith) (explicit : Bool) :
    (Ty.arith q a explicit).top unqualified = .arith (left unqualified q) a explicit := by
  cases unqualified <;> rfl

theorem top_enum (q : Quals) (tag : Nat) : (Ty.enum q tag).top unqualified = .enum
    (left unqualified q) tag := by
  cases unqualified <;> rfl

theorem top_ptr (q : Quals) (T : Ty) : (Ty.ptr q T).top unqualified = .ptr (left unqualified q) T := by
  cases unqualified <;> rfl

theorem top_record (q : Quals) (tag : Nat) : (Ty.record q tag).top unqualified = .record
    (left unqualified q) tag := by
  cases unqualified <;> rfl

theorem top_array (n : Option Nat) (T : Ty) : (Ty.array n T).top unqualified = .array n T := by
  cases unqualified <;> rfl

theorem top_func (ret : Ty) (params : Params) (dots : Bool) :
    (Ty.func ret params dots).top unqualified = .func ret params dots := by
  cases unqualified <;> rfl

end tops

/-- The counts of two arrays, -1 for an unknown one. -/
theorem counts_iff (n n' : Option Nat) :
    (n.elim (-1) Int.ofNat < 0 ∨ n'.elim (-1) Int.ofNat < 0 ∨ n.elim (-1) Int.ofNat = n'.elim
    (-1) Int.ofNat) ↔
      ∀ m ∈ n, ∀ m' ∈ n', m = m' := by
  cases n with
  | none => exact iff_of_true (Or.inl (by decide)) nofun
  | some m =>
    cases n' with
    | none => exact iff_of_true (Or.inr (Or.inl (by decide))) fun _ _ => nofun
    | some m' =>
      simp only [Option.elim_some, Option.mem_some_iff, Int.ofNat_eq_natCast]
      constructor
      · rintro h k rfl k' rfl
        omega
      · intro h
        exact Or.inr (Or.inr (congrArg _ (h m rfl m' rfl)))

/-- The comparison decides compatibility up to a nesting of the first type. -/
def TypesAgree (tgt : Target) (tags : Tags) (n : Nat) : Prop :=
  ∀ ⦃T1 T2 : Ty⦄ ⦃c1 c2 : CType⦄, T1.weight < n → T1.Represents tgt tags c1 → T2.Represents tgt tags c2 →
    T1.Clear →
    T2.Clear → ∀ unqualified, compare_types c1 c2 unqualified = true ↔
      Compatible false tgt tags (T1.top unqualified) (T2.top unqualified)

def ParamsAgree (tgt : Target) (tags : Tags) (n : Nat) : Prop :=
  ∀ ⦃params1 params2 : Params⦄ ⦃s1 s2 : Sym⦄, params1.weight < n → params1.Represents tgt tags s1 →
    params2.Represents tgt tags s2 → params1.Clear → params2.Clear →
      (params_compatible s1 s2 = true ↔ CompatibleParams false tgt tags params1 params2)

theorem typesAgree_succ {n : Nat} (htypes : TypesAgree tgt tags n) (hparams : ParamsAgree tgt tags n) :
    TypesAgree tgt tags (n + 1) := by
  intro T1 T2 c1 c2 hn h1 h2 hclear1 hclear2 unqualified
  rw [compare_types_iff_rest h1.word h2.word, ← left_eq_iff]
  by_cases hkey : (T1.head tags).key tgt = (T2.head tags).key tgt ∧
    left unqualified T1.quals = left unqualified T2.quals
  swap
  · refine iff_of_false (fun h => hkey h.1) fun h => hkey ?_
    have hsame := h.key_eq
    rwa [Ty.key_top, Ty.key_top, Ty.quals_top, Ty.quals_top] at hsame
  rw [and_iff_right hkey]
  obtain ⟨hkey, hquals⟩ := hkey
  cases T1 with
  | void q1 =>
    cases T2 with
    | void q2 =>
      rw [top_void, top_void, show left unqualified q1 = left unqualified q2 from hquals]
      refine iff_of_true (fun henum => ?_) (.void _)
      rw [h1.word.is_enum] at henum
      cases henum
    | record q2 tag2 => exact nomatch hkey.trans (Ty.key_record q2 tag2)
    | _ => cases hkey
  | arith q1 a1 explicit1 =>
    have hnone : IS_ENUM c1.t ≠ true := by
      rw [h1.word.is_enum]
      exact nofun
    cases T2 with
    | arith q2 a2 explicit2 =>
      obtain rfl : a1 = a2 := Key.arith.inj hkey
      rw [top_arith, top_arith, show left unqualified q1 = left unqualified q2 from hquals]
      exact iff_of_true (fun henum => absurd henum hnone) (.arith _ _ _ _)
    | enum q2 tag2 =>
      obtain rfl : a1 = (tags.enum_type tag2).arith tgt := Key.arith.inj hkey
      rw [top_arith, top_enum, show left unqualified q1 = left unqualified q2 from hquals]
      exact iff_of_true (fun henum => absurd henum hnone) (.arith_enum _ _ _)
    | record q2 tag2 => exact nomatch hkey.trans (Ty.key_record q2 tag2)
    | _ => cases hkey
  | enum q1 tag1 =>
    cases T2 with
    | arith q2 a2 explicit2 =>
      have hnone : IS_ENUM c2.t ≠ true := by
        rw [h2.word.is_enum]
        exact nofun
      obtain rfl : (tags.enum_type tag1).arith tgt = a2 := Key.arith.inj hkey
      rw [top_arith, top_enum, show left unqualified q1 = left unqualified q2 from hquals]
      exact iff_of_true (fun _ henum => absurd henum hnone) (.enum_arith _ _ _)
    | enum q2 tag2 =>
      have henum1 : IS_ENUM c1.t = true := h1.word.is_enum
      have henum2 : IS_ENUM c2.t = true := h2.word.is_enum
      rw [top_enum, top_enum, show left unqualified q1 = left unqualified q2 from hquals]
      change (_ → _ → c1.ref.addr = c2.ref.addr) ↔ _
      rw [h1.2, h2.2]
      constructor
      · intro htag
        rw [htag henum1 henum2]
        exact .enum _ _
      · intro hcompatible _ _
        cases hcompatible
        rfl
    | record q2 tag2 => exact nomatch hkey.trans (Ty.key_record q2 tag2)
    | _ => cases hkey
  | record q1 tag1 =>
    have hrecord : ((Ty.record q1 tag1).head tags).key tgt = .record := Ty.key_record q1 tag1
    rw [hrecord] at hkey ⊢
    cases T2 with
    | record q2 tag2 =>
      rw [top_record, top_record, show left unqualified q1 = left unqualified q2 from hquals]
      change c1.ref.addr = c2.ref.addr ↔ _
      rw [h1.2, h2.2]
      constructor
      · rintro rfl
        exact .record _ _
      · intro hcompatible
        cases hcompatible
        rfl
    | _ => cases hkey
  | ptr q1 T1 =>
    cases T2 with
    | ptr q2 T2 =>
      obtain ⟨-, a1, n1, f1, type1, next1, href1, hpointed1⟩ := h1
      obtain ⟨-, a2, n2, f2, type2, next2, href2, hpointed2⟩ := h2
      rw [top_ptr, top_ptr, show left unqualified q1 = left unqualified q2 from hquals]
      change pointed_compatible c1.ref c2.ref = true ↔ _
      rw [href1, href2]
      change compare_types type1 type2 false = true ↔ _
      rw [htypes (Nat.lt_of_succ_lt_succ hn) hpointed1 hpointed2 hclear1 hclear2 false]
      constructor
      · exact .ptr _
      · intro hcompatible
        cases hcompatible with
        | ptr _ hpointed => exact hpointed
    | record q2 tag2 => exact nomatch hkey.trans (Ty.key_record q2 tag2)
    | _ => cases hkey
  | array n1 T1 =>
    cases T2 with
    | array n2 T2 =>
      obtain ⟨-, a1, f1, type1, next1, href1, helem1⟩ := h1
      obtain ⟨-, a2, f2, type2, next2, href2, helem2⟩ := h2
      rw [top_array, top_array]
      change (c1.ref.c < 0 ∨ c2.ref.c < 0 ∨ c1.ref.c = c2.ref.c) ∧ pointed_compatible c1.ref c2.ref = true ↔ _
      rw [href1, href2]
      change (n1.elim (-1) Int.ofNat < 0 ∨ n2.elim (-1) Int.ofNat < 0 ∨
        n1.elim (-1) Int.ofNat = n2.elim (-1) Int.ofNat) ∧ compare_types type1 type2 false = true ↔ _
      rw [counts_iff, htypes (Nat.lt_of_succ_lt_succ hn) helem1 helem2 hclear1 hclear2 false]
      constructor
      · rintro ⟨hcount, helem⟩
        exact .array helem hcount
      · intro hcompatible
        cases hcompatible with
        | array helem hcount => exact ⟨hcount, helem⟩
    | record q2 tag2 => exact nomatch hkey.trans (Ty.key_record q2 tag2)
    | _ => cases hkey
  | func ret1 params1 dots1 =>
    cases T2 with
    | func ret2 params2 dots2 =>
      obtain ⟨-, a1, n1, f1, type1, next1, href1, hcall1, hftype1, hret1, hparams1⟩ := h1
      obtain ⟨-, a2, n2, f2, type2, next2, href2, hcall2, hftype2, hret2, hparams2⟩ := h2
      have hweight := ret1.weight_without_const
      rw [Ty.weight] at hn
      have hret := htypes (by omega) hret1.without_const hret2.without_const
        (Ty.clear_without_const hclear1.1)
        (Ty.clear_without_const hclear2.1) true
      have hlists := hparams (by omega) hparams1 hparams2 hclear1.2 hclear2.2
      have hnew1 : func_type f1 ≠ FUNC_OLD := hftype1 ▸ func_type_dots dots1
      have hnew2 : func_type f2 ≠ FUNC_OLD := hftype2 ▸ func_type_dots dots2
      rw [Ty.top_without_const, Ty.top_without_const] at hret
      rw [top_func, top_func]
      change is_compatible_func c1 c2 = true ↔ _
      rw [is_compatible_func, href1, href2, Bool.and_eq_true, is_compatible_loop_iff hnew1 hnew2, hret,
        hlists]
      change is_compatible_call f1 f2 = true ∧ _ ↔ _
      rw [is_compatible_call_iff hcall1 hcall2 hftype1 hftype2]
      constructor
      · rintro ⟨rfl, hresult, hlist⟩
        exact .func _ hresult hlist
      · intro hcompatible
        cases hcompatible with
        | func _ hresult hlist => exact ⟨rfl, hresult, hlist⟩
    | record q2 tag2 => exact nomatch hkey.trans (Ty.key_record q2 tag2)
    | _ => cases hkey

theorem paramsAgree_succ {n : Nat} (htypes : TypesAgree tgt tags n) (hparams : ParamsAgree tgt tags n) :
    ParamsAgree tgt tags (n + 1) := by
  intro params1 params2 s1 s2 hn h1 h2 hclear1 hclear2
  cases params1 with
  | nil =>
    obtain rfl := h1
    cases params2 with
    | nil =>
      obtain rfl := h2
      exact iff_of_true rfl .nil
    | cons f2 T2 rest2 =>
      obtain ⟨_, _, _, _, _, rfl, -⟩ := h2
      exact iff_of_false nofun nofun
  | cons f1 T1 rest1 =>
    obtain ⟨a1, a1', n1, pt1, next1, rfl, htype1, hrest1⟩ := h1
    cases params2 with
    | nil =>
      obtain rfl := h2
      exact iff_of_false nofun nofun
    | cons f2 T2 rest2 =>
      obtain ⟨a2, a2', n2, pt2, next2, rfl, htype2, hrest2⟩ := h2
      have hweight := T1.weight_adjusted
      rw [Params.weight] at hn
      have htype := htypes (by omega) (htype1.adjusted a1') (htype2.adjusted a2')
        (Ty.clear_adjusted hclear1.2.1)
        (Ty.clear_adjusted hclear2.2.1) true
      have hrest := hparams (by omega) hrest1 hrest2 hclear1.2.2 hclear2.2.2
      rw [Ty.top_adjusted, Ty.top_adjusted] at htype
      change is_compatible_loop _ _ = true ↔ _
      rw [is_compatible_loop_iff hclear1.1 hclear2.1, htype, hrest]
      constructor
      · rintro ⟨hhead, htail⟩
        exact .cons f1 f2 hhead htail
      · rintro (_ | ⟨_, _, hhead, htail⟩)
        exact ⟨hhead, htail⟩

theorem agree (tgt : Target) (tags : Tags) (n : Nat) : TypesAgree tgt tags n ∧ ParamsAgree tgt tags n := by
  induction n with
  | zero => exact ⟨fun _ _ _ _ hn => absurd hn (Nat.not_lt_zero _), fun _ _ _ _ hn => absurd hn
    (Nat.not_lt_zero _)⟩
  | succ n ih => exact ⟨typesAgree_succ ih.1 ih.2, paramsAgree_succ ih.1 ih.2⟩

theorem Compatible.unqualified (h : Compatible strict tgt tags T1 T2) :
    Compatible strict tgt tags T1.unqualified T2.unqualified := by
  cases h with
  | void q => exact .void _
  | arith q a e e' => exact .arith _ _ _ _
  | enum q tag => exact .enum _ _
  | enum_arith q tag e => exact .enum_arith _ _ _
  | arith_enum q tag e => exact .arith_enum _ _ _
  | record q tag => exact .record _ _
  | ptr q hpointed => exact .ptr _ hpointed
  | array helem hcount => exact .array helem hcount
  | func dots hret hparams => exact .func dots hret hparams

theorem Compatible.returned (h : Compatible strict tgt tags T1 T2) :
    Compatible strict tgt tags (T1.returned strict) (T2.returned strict) := by
  cases strict with
  | false => exact h.unqualified
  | true => exact h

theorem Compatible.adjusted (h : Compatible strict tgt tags T1 T2) :
    Compatible strict tgt tags T1.adjusted T2.adjusted := by
  have hunqualified := h.unqualified
  cases h with
  | array helem hcount => exact .ptr _ helem
  | func dots hret hparams => exact .ptr _ (.func dots hret hparams)
  | _ => exact hunqualified

mutual

theorem Compatible.refl : ∀ T : Ty, Compatible strict tgt tags T T
  | .void q => .void q
  | .arith q a explicit => .arith q a explicit explicit
  | .enum q tag => .enum q tag
  | .record q tag => .record q tag
  | .ptr q T => .ptr q (Compatible.refl T)
  | .array _ T => .array (Compatible.refl T) fun _ hm _ hm' => Option.some.inj (hm.symm.trans hm')
  | .func ret params dots => .func dots (Compatible.refl ret).returned (CompatibleParams.refl params)

theorem CompatibleParams.refl : ∀ params : Params, CompatibleParams strict tgt tags params params
  | .nil => .nil
  | .cons f T rest => .cons f f (Compatible.refl T).adjusted (CompatibleParams.refl rest)

end

mutual

theorem Compatible.symm {T1 T2 : Ty} : Compatible strict tgt tags T1 T2 → Compatible strict tgt tags T2 T1
  | .void q => .void q
  | .arith q a e e' => .arith q a e' e
  | .enum q tag => .enum q tag
  | .enum_arith q tag e => .arith_enum q tag e
  | .arith_enum q tag e => .enum_arith q tag e
  | .record q tag => .record q tag
  | .ptr q hpointed => .ptr q hpointed.symm
  | .array helem hcount => .array helem.symm fun m hm m' hm' => (hcount m' hm' m hm).symm
  | .func dots hret hparams => .func dots hret.symm hparams.symm

theorem CompatibleParams.symm {params1 params2 : Params} :
    CompatibleParams strict tgt tags params1 params2 → CompatibleParams strict tgt tags params2 params1
  | .nil => .nil
  | .cons f f' htype hrest => .cons f' f htype.symm hrest.symm

end

/-- The comparison is reflexive and symmetric, and it decides the compatibility of the two types,
  or of their unqualified
versions, where the qualifiers of a result are left out. -/
theorem compare_types_compatible (h1 : T1.Represents tgt tags c1) (h2 : T2.Represents tgt tags c2)
    (hclear1 : T1.Clear)
    (hclear2 : T2.Clear) (unqualified : Bool) :
    compare_types c1 c1 unqualified = true ∧
      compare_types c1 c2 unqualified = compare_types c2 c1 unqualified ∧
      (compare_types c1 c2 unqualified = true ↔
        Compatible false tgt tags (T1.top unqualified) (T2.top unqualified)) := by
  have h11 := (agree tgt tags (T1.weight + 1)).1 (Nat.lt_succ_self _) h1 h1 hclear1 hclear1 unqualified
  have h12 := (agree tgt tags (T1.weight + 1)).1 (Nat.lt_succ_self _) h1 h2 hclear1 hclear2 unqualified
  have h21 := (agree tgt tags (T2.weight + 1)).1 (Nat.lt_succ_self _) h2 h1 hclear2 hclear1 unqualified
  refine ⟨h11.mpr (Compatible.refl _), ?_, h12⟩
  rw [Bool.eq_iff_iff, h12, h21]
  exact ⟨Compatible.symm, Compatible.symm⟩

/-- `long` of 64 bits, with `char` signed. -/
def lp64 : Target := ⟨true, false, false⟩

def no_tags : Tags := ⟨fun _ => .uint, fun _ => false⟩

/-- `int (char a[7])` -/
def array_parameter : Ty :=
  .func (.arith .none .int false) (.cons 1#32 (.array (some 7) (.arith .none .char false)) .nil) false

/-- `int (char *)` -/
def pointer_parameter : Ty :=
  .func (.arith .none .int false) (.cons 0#32 (.ptr .none (.arith .none .char false)) .nil) false

/-- A prototype whose parameter has the word `f` and points to characters, by a symbol with the count `n`. -/
def prototype (f : BitVec 32) (n : Int) : CType :=
  .mk VT_FUNC (.mk 0 0 8#32 (.mk VT_INT .null)
    (.mk 0 0 f (.mk VT_PTR (.mk 0 n 0#32 (.mk VT_BYTE .null) .null)) .null))

theorem compare_types_array_parameter :
    compare_types (prototype 1#32 7) (prototype 1#32 7) false = true ∧
      compare_types (prototype 1#32 7) (prototype 0#32 (-1)) false =
        compare_types (prototype 0#32 (-1)) (prototype 1#32 7) false ∧
      (compare_types (prototype 1#32 7) (prototype 0#32 (-1)) false = true ↔
        Compatible false lp64 no_tags (array_parameter.top false) (pointer_parameter.top false)) := by
  have harray : (Ty.array (some 7) (.arith .none .char false)).Represents lp64 no_tags
      (.mk 0x45#32 (.mk 0 7 0#32 (.mk 1#32 .null) .null)) := ⟨rfl, 0, 0#32, _, .null, rfl, rfl⟩
  have hptr : (Ty.ptr .none (.arith .none .char false)).Represents lp64 no_tags
      (.mk 5#32 (.mk 0 (-1) 0#32 (.mk 1#32 .null) .null)) := ⟨rfl, 0, -1, 0#32, _, .null, rfl, rfl⟩
  have h1 : array_parameter.Represents lp64 no_tags (prototype 1#32 7) :=
    ⟨rfl, 0, 0, 8#32, .mk 3#32 .null, _, rfl, rfl, rfl, rfl, 0, 0, 0, _, .null, rfl, harray, rfl⟩
  have h2 : pointer_parameter.Represents lp64 no_tags (prototype 0#32 (-1)) :=
    ⟨rfl, 0, 0, 8#32, .mk 3#32 .null, _, rfl, rfl, rfl, rfl, 0, 0, 0, _, .null, rfl, hptr, rfl⟩
  have hclear1 : array_parameter.Clear := ⟨trivial, (by decide : func_type 1#32 ≠ FUNC_OLD), trivial, trivial⟩
  have hclear2 : pointer_parameter.Clear := ⟨trivial, (by decide : func_type 0#32 ≠ FUNC_OLD), trivial,
    trivial⟩
  exact compare_types_compatible h1 h2 hclear1 hclear2 false

/-- A function with a `volatile` result, and one without. -/
theorem not_compatible_volatile_result : ¬ ∀ (tgt : Target) (tags : Tags) (T1 T2 : Ty) (c1 c2 : CType)
    (unqualified : Bool),
    T1.Represents tgt tags c1 → T2.Represents tgt tags c2 → T1.Clear → T2.Clear →
      (compare_types c1 c2 unqualified = true ↔
        Compatible true tgt tags (T1.top unqualified) (T2.top unqualified)) := by
  intro hall
  have hsame := (hall lp64 no_tags
    (.func (.arith ⟨false, true⟩ .int false) .nil false) (.func (.arith .none .int false) .nil false)
    (.mk 6#32 (.mk 0 0 8#32 (.mk 0x203#32 .null) .null))
    (.mk 6#32 (.mk 0 0 8#32 (.mk 3#32 .null) .null)) false
    ⟨rfl, 0, 0, 8#32, .mk 0x203#32 .null, .null, rfl, rfl, rfl, rfl, rfl⟩
    ⟨rfl, 0, 0, 8#32, .mk 3#32 .null, .null, rfl, rfl, rfl, rfl, rfl⟩ ⟨trivial, trivial⟩ ⟨trivial,
      trivial⟩).mp rfl
  cases hsame with
  | func dots hret hparams => nomatch hret

end agreement

end tcc.compat
