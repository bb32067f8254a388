import Tcc.Machine.Numeral
import Tcc.Pp.Number

/-! The integer constants of C99, 6.4.4.1, with binary ones beside them, and their types. -/

open machine.numeral

namespace tcc.pp

inductive Form where
  | decimal
  | octal
  | hexadecimal
  | binary
deriving DecidableEq

namespace Form

def base : Form → Nat
  | decimal => 10
  | octal => 8
  | hexadecimal => 16
  | binary => 2

/-- What stands before the digits. Binary constants are an extension. -/
def heads (tcc_ext : Bool) : Form → List (List Byte)
  | decimal => [[]]
  | octal => [[]]
  | hexadecimal => [[48#8, 120#8], [48#8, 88#8]]
  | binary => if tcc_ext then [[48#8, 98#8], [48#8, 66#8]] else []

/-- A zero at the start tells an octal constant from a decimal one. -/
def Starts (digits : List Byte) : Form → Prop
  | decimal => digits ≠ [] ∧ digits.head? ≠ some 48#8
  | octal => digits.head? = some 48#8
  | _ => True

end Form

def digit_lt (b : Nat) (c : Byte) : Bool := (hex_digit c.toNat).any (· < b)

def digit_value (c : Byte) : Nat := (hex_digit c.toNat).getD 0

/-- Digits in one of the bases, perhaps none behind `0x` or `0b`. -/
structure Digits (tcc_ext : Bool) where
  form : Form
  head : List Byte
  digits : List Byte
  head_mem : head ∈ form.heads tcc_ext
  starts : form.Starts digits
  digits_lt : ∀ c ∈ digits, digit_lt form.base c = true

def is_l (c : Byte) : Bool := toup c == 76

def is_u (c : Byte) : Bool := toup c == 85

def Digits.value {tcc_ext : Bool} (d : Digits tcc_ext) : Nat := number d.form.base (d.digits.map digit_value)

/-- The integer suffixes: one of the letters u, one or two equal letters l, in either order. -/
def Suffix (letters : List Byte) : Prop :=
  ∃ us ∈ [[], [117#8], [85#8]], ∃ ls ∈ [[], [108#8], [76#8], [108#8, 108#8], [76#8, 76#8]],
    letters = us ++ ls ∨ letters = ls ++ us

structure IntegerConstant (tcc_ext : Bool) extends Digits tcc_ext where
  letters : List Byte
  digits_ne : digits ≠ []
  suffix : Suffix letters

def IntegerConstant.spelling {tcc_ext : Bool} (c : IntegerConstant tcc_ext) : List Byte :=
  c.head ++ c.digits ++ c.letters

section types

inductive Rank where
  | int
  | long
  | llong
deriving DecidableEq

structure IntType where
  rank : Rank
  unsigned : Bool
deriving DecidableEq

def IntType.tok : IntType → Word
  | ⟨.int, false⟩ => TOK_CINT
  | ⟨.int, true⟩ => TOK_CUINT
  | ⟨.long, false⟩ => TOK_CLONG
  | ⟨.long, true⟩ => TOK_CULONG
  | ⟨.llong, false⟩ => TOK_CLLONG
  | ⟨.llong, true⟩ => TOK_CULLONG

variable (target : Target)

def Rank.size : Rank → Nat
  | int => 4
  | long => target.LONG_SIZE
  | llong => 8

/-- The first number that is too large for a type. -/
def IntType.limit (ty : IntType) : Nat := 2 ^ (8 * ty.rank.size target - if ty.unsigned then 0 else 1)

/-- The types in the order of the table: those below the suffix's rank are left out, the signed ones
    with a suffix u, the unsigned ones of a decimal constant without it. -/
def type_list (decimal : Bool) (letters : List Byte) : List IntType :=
  ([.int, .long, .llong].drop (letters.countP is_l)).flatMap fun rank =>
    if 0 < letters.countP is_u then [⟨rank, true⟩]
    else if decimal then [⟨rank, false⟩]
    else [⟨rank, false⟩, ⟨rank, true⟩]

/-- The first type of the list that can represent the value. -/
def first_type (decimal : Bool) (letters : List Byte) (value : Nat) : Option IntType :=
  (type_list decimal letters).find? fun ty => decide (value < ty.limit target)

end types

/-- A spelling that starts with a digit. -/
structure Spelling where
  first : Byte
  rest : List Byte
  isnum : isnum first
  no_nul : 0#8 ∉ rest

def Spelling.text (s : Spelling) : List Byte := s.first :: s.rest

/-- What a number should be read as: an integer exactly where it is an integer constant, with its
    value, unless the overflow is warned about, and its type, unless no type has the value. -/
structure Conforms (target : Target) (tcc_ext : Bool) (text : List Byte) (r : Except Message Constant) : Prop where
  integer : (∃ tok i warned, r = .ok (.integer tok i warned)) ↔ ∃ c : IntegerConstant tcc_ext, c.spelling = text
  value : ∀ c : IntegerConstant tcc_ext, c.spelling = text → ∀ tok i warned,
    r = .ok (.integer tok i warned) → (c.value < 2 ^ 64 → i = c.value) ∧ (2 ^ 64 ≤ c.value → warned = true)
  type : ∀ c : IntegerConstant tcc_ext, c.spelling = text → ∀ tok i warned, r = .ok (.integer tok i warned) →
    ∀ ty, first_type target (c.form = .decimal) c.letters c.value = some ty → tok = ty.tok

end tcc.pp
