import Tcc.Machine.WordBytes
import Tcc.Pp.Cstr

/-! Token strings: tokens and their values in an array of ints. Lengths are not bounded. -/

open machine.wordbytes

namespace tcc.pp

abbrev Word := BitVec 32

def TOK_CCHAR : Word := 0xc0
def TOK_LCHAR : Word := 0xc1
def TOK_CINT : Word := 0xc2
def TOK_CUINT : Word := 0xc3
def TOK_CLLONG : Word := 0xc4
def TOK_CULLONG : Word := 0xc5
def TOK_CLONG : Word := 0xc6
def TOK_CULONG : Word := 0xc7
def TOK_STR : Word := 0xc8
def TOK_LSTR : Word := 0xc9
def TOK_CFLOAT : Word := 0xca
def TOK_CDOUBLE : Word := 0xcb
def TOK_CLDOUBLE : Word := 0xcc
def TOK_PPNUM : Word := 0xcd
def TOK_PPSTR : Word := 0xce
def TOK_LINENUM : Word := 0xcf

def TOK_HAS_VALUE (t : Word) : Prop := 0xc0 ≤ t.toInt ∧ t.toInt ≤ 0xcf

instance (t : Word) : Decidable (TOK_HAS_VALUE t) :=
  inferInstanceAs (Decidable (0xc0 ≤ t.toInt ∧ t.toInt ≤ 0xcf))

def TOK_MAX_SIZE : Nat := 4

/-- The sizes that the code is compiled for. -/
structure Target where
  LONG_SIZE : Nat
  LDOUBLE_SIZE : Nat
  long_size : LONG_SIZE = 4 ∨ LONG_SIZE = 8
  ldouble_size : LDOUBLE_SIZE = 8 ∨ LDOUBLE_SIZE = 12 ∨ LDOUBLE_SIZE = 16

/-- A token's value: the words of `tab`, whose first two are those of `i`, and the string, whose
    size is an int. -/
structure CValue where
  tab : Nat → Word
  str : List Byte
  size_lt : str.length < 2 ^ 31

def CValue.i (cv : CValue) : BitVec 64 := (cv.tab 1 ++ cv.tab 0 : BitVec (32 + 32))

def CValue.set (cv : CValue) (k : Nat) (w : Word) : CValue := { cv with tab := Function.update cv.tab k w }

def CValue.set_i (cv : CValue) (i : BitVec 64) : CValue :=
  (cv.set 0 (i.setWidth 32)).set 1 ((i >>> 32).setWidth 32)

structure TokenString where
  str : List Word
  len : Nat
  lastlen : Nat

def tok_str_new : TokenString := ⟨[], 0, 0⟩

def TokenString.allocated_len (s : TokenString) : Nat := s.str.length

/-- The loop of `tok_str_realloc`. -/
def double_len : Nat → Nat → Nat → Nat
  | 0, size, _ => size
  | turns + 1, size, new_size => if size < new_size then double_len turns (size * 2) new_size else size

section encoder

variable (mem : Realloc Word)

def tok_str_realloc (s : TokenString) (new_size : Nat) : TokenString :=
  let size := double_len new_size (if s.allocated_len < 16 then 16 else s.allocated_len) new_size
  if s.allocated_len < size then { s with str := mem.realloc s.str size } else s

/-- `str[len++] = w` for some words; there is no result outside the array. -/
def TokenString.put (s : TokenString) (ws : List Word) : Option TokenString :=
  if s.len + ws.length ≤ s.allocated_len then
    some { s with str := s.str.take s.len ++ ws ++ s.str.drop (s.len + ws.length), len := s.len + ws.length }
  else none

def words_for (size : Nat) : Nat := (size + 4 - 1) / 4

/-- `memcpy` to the end of the used words; the rest of the last word stays what it was. -/
def TokenString.memcpy (s : TokenString) (data : List Byte) : Option TokenString :=
  let n := words_for data.length
  s.put (words_of (data ++ (bytes_of ((s.str.drop s.len).take n)).drop data.length))

def tok_str_add (s : TokenString) (t : Word) : Option TokenString :=
  (if s.allocated_len ≤ s.len then tok_str_realloc mem s (s.len + 1) else s).put [t]

variable (target : Target)

def tok_str_add2 (s : TokenString) (t : Word) (cv : CValue) : Option TokenString := do
  let s := { s with lastlen := s.len }
  let s := if s.allocated_len ≤ s.len + TOK_MAX_SIZE then tok_str_realloc mem s (s.len + TOK_MAX_SIZE + 1)
    else s
  let s ← s.put [t]
  if t ∈ [TOK_CINT, TOK_CUINT, TOK_CCHAR, TOK_LCHAR, TOK_CFLOAT, TOK_LINENUM] ∨
      target.LONG_SIZE = 4 ∧ t ∈ [TOK_CLONG, TOK_CULONG] then
    s.put [cv.tab 0]
  else if t ∈ [TOK_PPNUM, TOK_PPSTR, TOK_STR, TOK_LSTR] then
    let nb_words := 1 + words_for cv.str.length
    let s := if s.allocated_len ≤ s.len + nb_words then tok_str_realloc mem s (s.len + nb_words + 1) else s
    let s ← s.put [BitVec.ofNat 32 cv.str.length]
    s.memcpy cv.str
  else if t ∈ [TOK_CDOUBLE, TOK_CLLONG, TOK_CULLONG] ∨
      target.LONG_SIZE = 8 ∧ t ∈ [TOK_CLONG, TOK_CULONG] ∨ target.LDOUBLE_SIZE = 8 ∧ t = TOK_CLDOUBLE then
    s.put [cv.tab 0, cv.tab 1]
  else if target.LDOUBLE_SIZE = 12 ∧ t = TOK_CLDOUBLE then s.put [cv.tab 0, cv.tab 1, cv.tab 2]
  else if target.LDOUBLE_SIZE = 16 ∧ t = TOK_CLDOUBLE then
    s.put [cv.tab 0, cv.tab 1, cv.tab 2, cv.tab 3]
  else some s

/-- The tokens one behind the other, and the 0 that ends them. -/
def add_tokens (s : TokenString) : List (Word × CValue) → Option TokenString
  | [] => tok_str_add mem s 0
  | token :: tokens => (tok_str_add2 mem target s token.1 token.2).bind fun s => add_tokens s tokens

end encoder

/-- Words that hold the bytes of a string, whatever the end of the last word holds. -/
def Packs (data : List Byte) (ws : List Word) : Prop :=
  ws.length = words_for data.length ∧ (bytes_of ws).take data.length = data

/-- What is stored behind a token. -/
def Payload (target : Target) (t : Word) (cv : CValue) (ws : List Word) : Prop :=
  if t ∈ [TOK_CINT, TOK_CUINT, TOK_CCHAR, TOK_LCHAR, TOK_CFLOAT, TOK_LINENUM] ∨
      target.LONG_SIZE = 4 ∧ t ∈ [TOK_CLONG, TOK_CULONG] then
    ws = [cv.tab 0]
  else if t ∈ [TOK_PPNUM, TOK_PPSTR, TOK_STR, TOK_LSTR] then
    ∃ data, ws = BitVec.ofNat 32 cv.str.length :: data ∧ Packs cv.str data
  else if t ∈ [TOK_CDOUBLE, TOK_CLLONG, TOK_CULLONG] ∨
      target.LONG_SIZE = 8 ∧ t ∈ [TOK_CLONG, TOK_CULONG] ∨ target.LDOUBLE_SIZE = 8 ∧ t = TOK_CLDOUBLE then
    ws = [cv.tab 0, cv.tab 1]
  else if t = TOK_CLDOUBLE then ws = (List.range (target.LDOUBLE_SIZE / 4)).map cv.tab
  else ws = []

section decoder

variable (target : Target)

/-- `copy`: a number of words into `tab`. -/
def copy_words (cv : CValue) (k : Nat) : Nat → List Word → Option (CValue × List Word)
  | 0, p => some (cv, p)
  | _ + 1, [] => none
  | n + 1, w :: p => copy_words (cv.set k w) (k + 1) n p

/-- The words from the pointer on to the token, its value and the words behind it; there is no
    result where they end before. -/
def tok_get (p : List Word) (cv : CValue) : Option (Word × CValue × List Word) :=
  match p with
  | [] => none
  | t :: p =>
    if target.LONG_SIZE = 4 ∧ t = TOK_CLONG ∨ t ∈ [TOK_CINT, TOK_CCHAR, TOK_LCHAR, TOK_LINENUM] then
      match p with
      | [] => none
      | w :: p => some (t, cv.set_i (w.signExtend 64), p)
    else if target.LONG_SIZE = 4 ∧ t = TOK_CULONG ∨ t = TOK_CUINT then
      match p with
      | [] => none
      | w :: p => some (t, cv.set_i (w.setWidth 64), p)
    else if t = TOK_CFLOAT then
      match p with
      | [] => none
      | w :: p => some (t, cv.set 0 w, p)
    else if t ∈ [TOK_STR, TOK_LSTR, TOK_PPNUM, TOK_PPSTR] then
      match p with
      | [] => none
      | size :: p =>
        let data := (bytes_of (p.take (words_for size.toNat))).take size.toNat
        if hsize : data.length = size.toNat ∧ size.toNat < 2 ^ 31 then
          some (t, { cv with str := data, size_lt := by omega }, p.drop (words_for size.toNat))
        else none
    else if t ∈ [TOK_CDOUBLE, TOK_CLLONG, TOK_CULLONG] ∨
        target.LONG_SIZE = 8 ∧ t ∈ [TOK_CLONG, TOK_CULONG] then
      (copy_words cv 0 2 p).map fun got => (t, got)
    else if t = TOK_CLDOUBLE then
      (copy_words cv 0 (if target.LDOUBLE_SIZE = 16 then 4 else if target.LDOUBLE_SIZE = 12 then 3 else 2)
        p).map fun got => (t, got)
    else some (t, cv, p)

def TOK_GET (p : List Word) (cv : CValue) : Option (Word × CValue × List Word) :=
  match p with
  | [] => none
  | t :: rest => if TOK_HAS_VALUE t then tok_get target p cv else some (t, cv, rest)

/-- The tokens up to the 0, each with the value that is there when it is read. -/
def get_tokens : Nat → List Word → CValue → Option (List (Word × CValue))
  | 0, _, _ => none
  | turns + 1, p, cv =>
    match TOK_GET target p cv with
    | none => none
    | some (t, cv, p) => if t = 0 then some [] else (get_tokens turns p cv).map fun got => (t, cv) :: got

end decoder

/-- What a token of a kind is worth. -/
inductive Value where
  | none
  | int (i : BitVec 64)
  | words (ws : List Word)
  | str (data : List Byte)
deriving DecidableEq

/-- The value of a token: `i` of an integer or character constant or line number, the words of a
    floating constant, the bytes of a string. -/
def value (target : Target) (t : Word) (cv : CValue) : Value :=
  if t ∈ [TOK_CCHAR, TOK_LCHAR, TOK_CINT, TOK_CUINT, TOK_CLLONG, TOK_CULLONG, TOK_CLONG, TOK_CULONG,
      TOK_LINENUM] then .int cv.i
  else if t = TOK_CFLOAT then .words [cv.tab 0]
  else if t = TOK_CDOUBLE then .words [cv.tab 0, cv.tab 1]
  else if t = TOK_CLDOUBLE then .words ((List.range (target.LDOUBLE_SIZE / 4)).map cv.tab)
  else if t ∈ [TOK_STR, TOK_LSTR, TOK_PPNUM, TOK_PPSTR] then .str cv.str
  else .none

/-- `i` is a value of the constant's type. -/
def InRange (target : Target) (t : Word) (cv : CValue) : Prop :=
  (t ∈ [TOK_CINT, TOK_CCHAR, TOK_LCHAR, TOK_LINENUM] ∨ target.LONG_SIZE = 4 ∧ t = TOK_CLONG →
      cv.i = (cv.tab 0).signExtend 64) ∧
    (t = TOK_CUINT ∨ target.LONG_SIZE = 4 ∧ t = TOK_CULONG → cv.i = (cv.tab 0).setWidth 64)

end tcc.pp
