import Tcc.Pp.Cstr

/-! The characters of string literals and character constants. A `nwchar_t` is an int, as on the
    targets other than PE; a value of type int is kept as a number, modulo the width that it is
    stored with. -/

namespace tcc.pp

/-- What one turn of the loop of `parse_escape_string` does. A turn that reads behind the end of
    the buffer is `past`. -/
inductive Turn where
  | finish
  | put (c : Nat) (p : List Byte)
  | put_utf8 (n : Nat) (p : List Byte)
  | expect
  | past
deriving DecidableEq

def isoct (c : Nat) : Prop := 48 ≤ c ∧ c ≤ 55

instance (c : Nat) : Decidable (isoct c) := inferInstanceAs (Decidable (48 ≤ c ∧ c ≤ 55))

def hex_digit (c : Nat) : Option Nat :=
  if 97 ≤ c ∧ c ≤ 102 then some (c - 97 + 10)
  else if 65 ≤ c ∧ c ≤ 70 then some (c - 65 + 10)
  else if 48 ≤ c ∧ c ≤ 57 then some (c - 48)
  else none

/-- At most three octal digits, from the second one on. -/
def octal_escape (n : Nat) : List Byte → Turn
  | [] => .past
  | b :: p =>
    if isoct b.toNat then
      match p with
      | [] => .past
      | b' :: p' =>
        if isoct b'.toNat then .put ((n * 8 + (b.toNat - 48)) * 8 + (b'.toNat - 48)) p'
        else .put (n * 8 + (b.toNat - 48)) (b' :: p')
    else .put n (b :: p)

/-- The digits of `\x`, as many as there are. -/
def hex_escape (n : Nat) : List Byte → Turn
  | [] => .past
  | b :: p =>
    match hex_digit b.toNat with
    | some d => hex_escape (n * 16 + d) p
    | none => .put n (b :: p)

section reader

variable (is_long gnu_ext : Bool)

/-- The digits of `\u` and `\U`. -/
def universal_name : Nat → Nat → List Byte → Turn
  | 0, n, p => if is_long then .put n p else .put_utf8 n p
  | _ + 1, _, [] => .past
  | i + 1, n, b :: p =>
    match hex_digit b.toNat with
    | some d => universal_name i (n * 16 + d) p
    | none => .expect

/-- The characters that stand for another one behind a backslash; `e` is one with `gnu_ext`. The
    others stand for themselves, with a warning where they are not a quote, a backslash or `?`. -/
def simple_escape (c : Nat) : Nat :=
  if c = 97 then 7
  else if c = 98 then 8
  else if c = 102 then 12
  else if c = 110 then 10
  else if c = 114 then 13
  else if c = 116 then 9
  else if c = 118 then 11
  else if c = 101 ∧ gnu_ext = true then 27
  else c

/-- What stands behind a backslash. -/
def escape : List Byte → Turn
  | [] => .past
  | b :: p =>
    if isoct b.toNat then octal_escape (b.toNat - 48) p
    else if b.toNat = 120 then hex_escape 0 p
    else if b.toNat = 117 then universal_name is_long 4 0 p
    else if b.toNat = 85 then universal_name is_long 8 0 p
    else .put (simple_escape gnu_ext b.toNat) p

/-- The limits of a continuation byte. -/
def limits (c i : Nat) : Nat × Nat :=
  if i = 1 then
    if c = 0xE0 then (0xA0, 0xBF)
    else if c = 0xED then (0x80, 0x9F)
    else if c = 0xF0 then (0x90, 0xBF)
    else if c = 0xF4 then (0x80, 0x8F)
    else (0x80, 0xBF)
  else (0x80, 0xBF)

/-- The continuation bytes, from the `i`-th one on, of which there are some more. -/
def continuation (c : Nat) (p : List Byte) : Nat → Nat → Nat → Turn
  | 0, i, n => .put n (p.drop i)
  | left + 1, i, n =>
    match p[i]? with
    | none => .past
    | some b =>
      if b.toNat < (limits c i).1 ∨ (limits c i).2 < b.toNat then .put 0xFFFD (p.drop i)
      else continuation c p left (i + 1) (n <<< 6 ||| b.toNat &&& 0x3f)

/-- A UTF-8 sequence with its leading byte `c`, which `p` starts with. -/
def utf8_sequence (c : Nat) (p : List Byte) : Turn :=
  if c < 0xC2 then .put 0xFFFD (p.drop 1)
  else if c ≤ 0xDF then continuation c p 1 1 (c &&& 0x1f)
  else if c ≤ 0xEF then continuation c p 2 1 (c &&& 0xf)
  else if c ≤ 0xF4 then continuation c p 3 1 (c &&& 0x7)
  else .put 0xFFFD (p.drop 1)

def turn : List Byte → Turn
  | [] => .past
  | b :: p =>
    if b.toNat = 0 then .finish
    else if b.toNat = 92 then escape is_long gnu_ext p
    else if is_long ∧ 0x80 ≤ b.toNat then utf8_sequence b.toNat (b :: p)
    else .put b.toNat p

end reader

/-- The bytes of a character. `tcc_error` stops at what is no scalar value. -/
def unicode_to_utf8 (Uc : BitVec 32) : Option (List Byte) :=
  if Uc < 0x80 then some [Uc.setWidth 8]
  else if Uc < 0x800 then some [(192 + Uc / 64).setWidth 8, (128 + Uc % 64).setWidth 8]
  else if Uc - 0xd800 < 0x800 then none
  else if Uc < 0x10000 then
    some [(224 + Uc / 4096).setWidth 8, (128 + Uc / 64 % 64).setWidth 8, (128 + Uc % 64).setWidth 8]
  else if Uc < 0x110000 then
    some [(240 + Uc / 262144).setWidth 8, (128 + Uc / 4096 % 64).setWidth 8,
      (128 + Uc / 64 % 64).setWidth 8, (128 + Uc % 64).setWidth 8]
  else none

/-- How the function ends without a string. -/
inductive Stop where
  | error
  | past
  | turns
deriving DecidableEq

/-- A wide string: the characters, and the 0 that is added. -/
def parse_wide (gnu_ext : Bool) : Nat → List Byte → Except Stop (List (BitVec 32))
  | 0, _ => .error .turns
  | turns + 1, p =>
    match turn true gnu_ext p with
    | .finish => .ok [0]
    | .put c p | .put_utf8 c p => (parse_wide gnu_ext turns p).map fun cs => BitVec.ofNat 32 c :: cs
    | .expect => .error .error
    | .past => .error .past

/-- An ordinary string: the bytes, and the 0 that is added. -/
def parse_narrow (gnu_ext : Bool) : Nat → List Byte → Except Stop (List Byte)
  | 0, _ => .error .turns
  | turns + 1, p =>
    match turn false gnu_ext p with
    | .finish => .ok [0]
    | .put c p => (parse_narrow gnu_ext turns p).map fun bs => BitVec.ofNat 8 c :: bs
    | .put_utf8 n p =>
      match unicode_to_utf8 (BitVec.ofNat 32 n) with
      | none => .error .error
      | some us => (parse_narrow gnu_ext turns p).map fun bs => us ++ bs
    | .expect => .error .error
    | .past => .error .past

end tcc.pp
