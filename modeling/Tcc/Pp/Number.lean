import Tcc.Pp.Escape
import Tcc.Pp.Identifier
import Tcc.Pp.TokenString

/-! Preprocessing numbers. A list stands for `ch` and the characters behind it: `ch` is its head, or
    the NUL at the end of the text where it is empty. -/

namespace tcc.pp

def STRING_MAX_SIZE : Nat := 1024

def toup (c : Byte) : Nat := if 97 ≤ c.toNat ∧ c.toNat ≤ 122 then c.toNat - 97 + 65 else c.toNat

/-- What `tcc_error` prints; `arg` stands for a `%s` in it. -/
structure Message where
  text : String
  arg : List Byte
deriving DecidableEq

def tcc_error (text : String) : Message := ⟨text, []⟩

/-- What the library makes a floating value of: the text for `strtof`, `strtod` and `strtold`, or the
    mantissa and the exponent for `ldexp`. -/
inductive Floating where
  | text (token_buf : List Byte)
  | scaled (bn : BitVec 32 × BitVec 32) (exp : BitVec 32)
deriving DecidableEq

/-- The token and its value; for an integer also whether the overflow was warned about. -/
inductive Constant where
  | integer (tok : Word) (i : Nat) (warned : Bool)
  | floating (tok : Word) (v : Floating)
deriving DecidableEq

/-- The loop that collects digits in `token_buf`. -/
def scan_digits (b : Nat) (q : List Byte) : List Byte → Except Message (List Byte × List Byte)
  | [] => .ok (q, [])
  | ch :: p =>
    match hex_digit ch.toNat with
    | none => .ok (q, ch :: p)
    | some t =>
      if b ≤ t then .ok (q, ch :: p)
      else if STRING_MAX_SIZE ≤ q.length then .error (tcc_error "number too long")
      else scan_digits b (q ++ [ch]) p

/-- The value of a digit that has been collected. -/
def collected (c : Byte) : Nat :=
  if 97 ≤ c.toNat then c.toNat - 97 + 10
  else if 65 ≤ c.toNat then c.toNat - 65 + 10
  else c.toNat - 48

section floating

/-- `bn = (bn << shift) | or_val`, the low word first. -/
def bn_lshift (bn : BitVec 32 × BitVec 32) (shift or_val : Nat) : BitVec 32 × BitVec 32 :=
  (bn.1 <<< shift ||| BitVec.ofNat 32 or_val, bn.2 <<< shift ||| bn.1 >>> (32 - shift))

/-- The digits behind the point of a hexadecimal or binary number. -/
def fraction (b shift : Nat) (bn : BitVec 32 × BitVec 32) (frac_bits : BitVec 32) :
    List Byte → Except Message ((BitVec 32 × BitVec 32) × BitVec 32 × List Byte)
  | [] => .ok (bn, frac_bits, [])
  | ch :: p =>
    match hex_digit ch.toNat with
    | none => .ok (bn, frac_bits, ch :: p)
    | some t =>
      if b ≤ t then .error (tcc_error "invalid digit")
      else fraction b shift (bn_lshift bn shift t) (frac_bits + BitVec.ofNat 32 shift) p

def exponent_value (exp_val : BitVec 32) : List Byte → BitVec 32 × List Byte
  | [] => (exp_val, [])
  | ch :: p => if isnum ch then exponent_value (exp_val * 10 + ch.setWidth 32 - 48) p else (exp_val, ch :: p)

/-- The end of a floating constant. -/
def float_suffix (ldouble_is_double : Bool) (v : Floating) (s : List Byte) : Constant × List Byte :=
  if toup (s.headD 0) = 70 then (.floating TOK_CFLOAT v, s.tail)
  else if toup (s.headD 0) = 76 then
    (.floating (if ldouble_is_double then TOK_CDOUBLE else TOK_CLDOUBLE) v, s.tail)
  else (.floating TOK_CDOUBLE v, s)

/-- Hexadecimal and binary floats, with the digits before the point in `token_buf`. -/
def scaled_float (ldouble_is_double : Bool) (b : Nat) (token_buf s : List Byte) :
    Except Message (Constant × List Byte) := do
  let shift := if b = 16 then 4 else 1
  let bn := token_buf.foldl (fun bn c => bn_lshift bn shift (collected c)) (0, 0)
  let (bn, frac_bits, s) ← if s.headD 0 = 46#8 then fraction b shift bn 0 s.tail else pure (bn, 0, s)
  if s.headD 0 ≠ 112#8 ∧ s.headD 0 ≠ 80#8 then throw (tcc_error "exponent expected")
  let s := s.tail
  let minus := s.headD 0 = 45#8
  let s := if s.headD 0 = 43#8 ∨ s.headD 0 = 45#8 then s.tail else s
  if ¬ isnum (s.headD 0) then throw (tcc_error "exponent digits expected")
  let (exp_val, s) := exponent_value 0 s
  return float_suffix ldouble_is_double (.scaled bn ((if minus then -exp_val else exp_val) - frac_bits)) s

def put_char (q : List Byte) (ch : Byte) : Except Message (List Byte) :=
  if STRING_MAX_SIZE ≤ q.length then .error (tcc_error "number too long") else .ok (q ++ [ch])

def put_digits (q : List Byte) : List Byte → Except Message (List Byte × List Byte)
  | [] => .ok (q, [])
  | ch :: p =>
    if isnum ch then
      if STRING_MAX_SIZE ≤ q.length then .error (tcc_error "number too long")
      else put_digits (q ++ [ch]) p
    else .ok (q, ch :: p)

/-- A decimal float, from its exponent on. -/
def float_exponent (ldouble_is_double : Bool) (q s : List Byte) : Except Message (Constant × List Byte) := do
  let (q, s) ←
    if s.headD 0 = 101#8 ∨ s.headD 0 = 69#8 then do
      let q ← put_char q (s.headD 0)
      let s := s.tail
      let (q, s) ← if s.headD 0 = 45#8 ∨ s.headD 0 = 43#8 then do
          let q ← put_char q (s.headD 0)
          pure (q, s.tail)
        else pure (q, s)
      if ¬ isnum (s.headD 0) then throw (tcc_error "exponent digits expected")
      put_digits q s
    else pure (q, s)
  return float_suffix ldouble_is_double (.text q) s

/-- A decimal float, from the digits behind its point on. -/
def float_frac_parse (ldouble_is_double : Bool) (q s : List Byte) : Except Message (Constant × List Byte) := do
  let (q, s) ← put_digits q s
  float_exponent ldouble_is_double q s

def decimal_float (ldouble_is_double : Bool) (q s : List Byte) : Except Message (Constant × List Byte) := do
  if s.headD 0 = 46#8 then
    let q ← put_char q (s.headD 0)
    float_frac_parse ldouble_is_double q s.tail
  else float_exponent ldouble_is_double q s

end floating

section integer

/-- The value of the collected digits, with the check for the overflow. -/
def integer_value (b n : Nat) (ov : Bool) : List Byte → Except Message (Nat × Bool)
  | [] => .ok (n, ov)
  | c :: q =>
    if b ≤ collected c then .error (tcc_error "invalid digit")
    else
      integer_value b ((n * b + collected c) % 2 ^ 64)
        (ov || (decide (0x1000000000000000 ≤ n) && decide ((n * b + collected c) % 2 ^ 64 / b ≠ n))) q

/-- The loop over the suffix; `last` is `*(p - 1)`. -/
def integer_suffix (p1 : List Byte) (last : Byte) (lcount ucount : Nat) :
    List Byte → Except Message (Nat × Nat × List Byte)
  | [] => .ok (lcount, ucount, [])
  | ch :: p =>
    if toup ch = 76 then
      if 2 ≤ lcount then .error (tcc_error "three 'l's in integer constant")
      else if lcount ≠ 0 ∧ last ≠ ch then .error ⟨"incorrect integer suffix: %s", p1⟩
      else integer_suffix p1 (p.headD 0) (lcount + 1) ucount p
    else if toup ch = 85 then
      if 1 ≤ ucount then .error (tcc_error "two 'u's in integer constant")
      else integer_suffix p1 (p.headD 0) lcount (ucount + 1) p
    else .ok (lcount, ucount, ch :: p)

variable (target : Target)

/-- Whether the constant needs 64 bits or an unsigned type: `lcount`, `ucount` and `ov` for it. -/
def needs (b n lcount ucount : Nat) (ov : Bool) : Nat × Nat × Bool :=
  let long_is_4 := if target.LONG_SIZE = 4 then 1 else 0
  if ucount = 0 ∧ b = 10 then
    let lcount := if lcount ≤ long_is_4 ∧ 0x80000000 ≤ n then long_is_4 + 1 else lcount
    if 0x8000000000000000 ≤ n then (lcount, 1, true) else (lcount, ucount, ov)
  else
    let (lcount, ucount) :=
      if lcount ≤ long_is_4 then
        if 0x100000000 ≤ n then (long_is_4 + 1, ucount)
        else if 0x80000000 ≤ n then (lcount, 1)
        else (lcount, ucount)
      else (lcount, ucount)
    (lcount, if 0x8000000000000000 ≤ n then 1 else ucount, ov)

def integer_tok (lcount ucount : Nat) : Word :=
  let tok := if lcount = 0 then TOK_CINT else if lcount = 2 then TOK_CLLONG else TOK_CLONG
  if ucount = 0 then tok else tok + 1

/-- An integer number with its digits in `token_buf`. -/
def integer (b : Nat) (token_buf s : List Byte) : Except Message (Constant × List Byte) := do
  let octal := b = 10 ∧ token_buf.headD 0 = 48#8
  let b := if octal then 8 else b
  let (n, ov) ← integer_value b 0 false (if octal then token_buf.tail else token_buf)
  let (lcount, ucount, s) ← integer_suffix s.tail (s.headD 0) 0 0 s
  let (lcount, ucount, ov) := needs target b n lcount ucount ov
  return (.integer (integer_tok lcount ucount) n ov, s)

end integer

/-- The base that the start of a number announces, `token_buf` and the characters that are left. -/
def number_base (tcc_ext : Bool) (t : Byte) (s : List Byte) : Nat × List Byte × List Byte :=
  if t = 48#8 ∧ (s.headD 0 = 120#8 ∨ s.headD 0 = 88#8) then (16, [], s.tail)
  else if t = 48#8 ∧ tcc_ext = true ∧ (s.headD 0 = 98#8 ∨ s.headD 0 = 66#8) then (2, [], s.tail)
  else (10, [t], s)

/-- The characters that make a number a floating one. -/
def float_follows (b : Nat) (ch : Byte) : Prop :=
  ch = 46#8 ∨ (ch = 101#8 ∨ ch = 69#8) ∧ b = 10 ∨ (ch = 112#8 ∨ ch = 80#8) ∧ (b = 16 ∨ b = 2)

instance (b : Nat) (ch : Byte) : Decidable (float_follows b ch) :=
  inferInstanceAs (Decidable (ch = 46#8 ∨ (ch = 101#8 ∨ ch = 69#8) ∧ b = 10 ∨
    (ch = 112#8 ∨ ch = 80#8) ∧ (b = 16 ∨ b = 2)))

section number

variable (target : Target) (ldouble_is_double tcc_ext : Bool)

/-- The number that starts with `t`, and what is behind it. -/
def scan_number (t : Byte) (s : List Byte) : Except Message (Constant × List Byte) :=
  if t = 46#8 then float_frac_parse ldouble_is_double [t] s
  else do
    let (b, q, s) := number_base tcc_ext t s
    let (q, s) ← scan_digits b q s
    if float_follows b (s.headD 0) then
      if b ≠ 10 then scaled_float ldouble_is_double b q s else decimal_float ldouble_is_double q s
    else integer target b q s

/-- `t` is the first character; `ldouble_is_double` is `TCC_USING_DOUBLE_FOR_LDOUBLE`. -/
def parse_number (t : Byte) (s : List Byte) : Except Message Constant := do
  let (c, s) ← scan_number target ldouble_is_double tcc_ext t s
  if s.headD 0 ≠ 0#8 then throw (tcc_error "invalid number")
  return c

end number

end tcc.pp
