import Mathlib.Algebra.Group.Nat.Defs
import Mathlib.Tactic.Common

/-! `tcc_set_linker` of `libtcc.c` on memory: the argument of `-Wl`, the blocks it allocates,
  and every access to them.
    `none` is an access outside of the buffer. -/

namespace tcc.driver

/-- A pointer into a buffer: the bytes from it to the end of the buffer. -/
abbrev Ptr := List UInt8

/-- The bytes of a string literal, without the terminator. -/
def lit (s : String) : List UInt8 := s.toList.map fun c => c.toNat.toUInt8

def comma : UInt8 := 44

def equals : UInt8 := 61

def dash : UInt8 := 45

def colon : UInt8 := 58

def question : UInt8 := 63

section string_h

/-- The string at a pointer. Without a terminator it is read beyond the buffer. -/
def cstr (p : Ptr) : Option (List UInt8) := if 0 ∈ p then some (p.takeWhile (· ≠ 0)) else none

def strlen (p : Ptr) : Option Nat := (cstr p).map List.length

def strchr (c : UInt8) : Ptr → Option (Option Ptr)
  | [] => none
  | b :: p => if b = c then some (some (b :: p)) else if b = 0 then some none else strchr c p

def isspace (c : UInt8) : Bool := c = 32 || 9 ≤ c && c ≤ 13

/-- The value of a hexadecimal digit. -/
def hex_digit (c : UInt8) : Option Nat :=
  if 48 ≤ c ∧ c ≤ 57 then some (c.toNat - 48)
  else if 65 ≤ c ∧ c ≤ 70 then some (c.toNat - 55)
  else if 97 ≤ c ∧ c ≤ 102 then some (c.toNat - 87)
  else none

def drop_sign (s : List UInt8) : Bool × List UInt8 :=
  if s.head? = some dash then (true, s.tail) else if s.head? = some 43 then (false, s.tail) else (false, s)

/-- `0x` counts only before a digit. -/
def drop_0x (s : List UInt8) : List UInt8 :=
  if s.head? = some 48 ∧ (s.tail.head? = some 120 ∨ s.tail.head? = some 88) ∧
    (s.tail.tail.head?.bind hex_digit).isSome
  then s.tail.tail else s

def hex_value (s : List UInt8) : Nat :=
  (s.takeWhile fun c => (hex_digit c).isSome).foldl (fun n c => 16 * n + (hex_digit c).getD 0) 0

def hex_number (bits : Nat) (s : List UInt8) : Nat :=
  let (neg, s) := drop_sign (s.dropWhile isspace)
  let n := hex_value (drop_0x s)
  if 2 ^ bits ≤ n then 2 ^ bits - 1 else if neg then (2 ^ bits - n) % 2 ^ bits else n

/-- `strtoul` and `strtoull` with base 16, for a result of `bits` bits. -/
def strtou (bits : Nat) (p : Ptr) : Option Nat := (cstr p).map (hex_number bits)

/-- A block that holds a string. -/
abbrev Block := { p : List UInt8 // 0 ∈ p }

/-- The bytes that are new are not determined; here they are zero. -/
def tcc_realloc (p : List UInt8) (size : Nat) : List UInt8 := p.take size ++ List.replicate
    (size - p.length) 0

def tcc_mallocz (size : Nat) : List UInt8 := List.replicate size 0

def strcpy (block : List UInt8) (p : Ptr) : Option (List UInt8) := do
  let s ← cstr p
  if s.length + 1 ≤ block.length then some (s ++ 0 :: block.drop (s.length + 1)) else none

/-- `pstrncpy(block + l, in, num)`. -/
def pstrncpy (block : List UInt8) (l : Nat) (p : Ptr) (num : Nat) : Option Block :=
  if l + num < block.length ∧ num ≤ p.length then
    some ⟨block.take l ++ p.take num ++ 0 :: block.drop (l + num + 1), by simp⟩
  else none

end string_h

inductive OutputFormat
  | ELF
  | BINARY
  | COFF
deriving DecidableEq

/-- The sizes of `addr_t` in bytes and of `unsigned long` in bits. -/
structure Sizes where
  PTR_SIZE : Nat
  ULONG_BITS : Nat

/-- The fields of `TCCState` that the options set, and those that decide if a warning is an error. -/
structure TCCState where
  warn_none : Bool
  warn_error : Bool
  warn_unsupported : BitVec 8
  symbolic : Bool
  nostdlib : Bool
  rdynamic : Bool
  enable_new_dtags : Bool
  has_text_addr : Bool
  text_addr : Nat
  data_addr : Nat
  section_align : Nat
  output_format : OutputFormat
  filetype : BitVec 32
  elf_entryname : Option Block
  fini_symbol : Option Block
  init_symbol : Option Block
  mapfile : Option Block
  rpath : Option Block
  soname : Option Block
  defsyms : List (List UInt8)

def AFF_WHOLE_ARCHIVE : BitVec 32 := 0x80

/-- `error1` for `tcc_warning_c(warn_unsupported)`. -/
def TCCState.unsupported_is_error (s : TCCState) : Bool :=
  s.warn_unsupported.getLsbD 0 && !s.warn_none && !s.warn_unsupported.getLsbD 2 &&
    (s.warn_error || s.warn_unsupported.getLsbD 1)

/-- Whether `val` begins at the pointer, and the pointer behind it. -/
def strstart : (val : List UInt8) → Ptr → Option (Option Ptr)
  | [], p => some (some p)
  | _ :: _, [] => none
  | v :: val, c :: p => if c ≠ v then some none else strstart val p

/-- The loop of `link_option`: up to the end of `val` or to its `=`. -/
def match_option : (val : List UInt8) → Ptr → Option (Option (List UInt8 × Ptr))
  | [], p => some (some ([], p))
  | v :: val, p =>
    if v = equals then some (some (v :: val, p))
    else match p with
      | [] => none
      | c :: p => if c ≠ v then some none else match_option val p

/-- The result of `link_option`, and what it stores at `ptr`. -/
structure Linked where
  ret : Int
  ptr : Option Ptr

/-- `link_option` after the dashes and the question mark. -/
def link_value (ret : Int) (val : List UInt8) (p : Ptr) : Option Linked := do
  match ← match_option val p with
  | none => some ⟨0, none⟩
  | some (q, p) =>
    let c ← p.head?
    if q.head? = some equals then
      if c ≠ comma ∧ c ≠ equals then some ⟨0, if c = 0 then some p else none⟩ else some ⟨ret, some p.tail⟩
    else if c ≠ 0 then some ⟨0, none⟩
    else some ⟨ret, some p⟩

/-- `link_option` after the dashes. -/
def link_pattern (p : Ptr) (val : List UInt8) : Option Linked :=
  if val.head? = some question then do
    match ← strstart (lit "no-") p with
    | some p => link_value (-1) val.tail p
    | none => link_value 1 val.tail p
  else link_value 1 val p

def link_option (str : Ptr) (val : List UInt8) : Option Linked := do
  let c ← str.head?
  if c ≠ dash then some ⟨0, none⟩ else
    let c ← str.tail.head?
    link_pattern (if c = dash then str.tail.tail else str.tail) val

/-- Where the string of the option ends, and where the next one begins. -/
def skip_linker_arg (s1 : Ptr) : Option (Ptr × Ptr) := do
  match ← strchr comma s1 with
  | some s2 => some (s2, s2.tail)
  | none =>
    let n ← strlen s1
    some (s1.drop n, s1.drop n)

def copy_linker_arg (pp : Option Block) (s : Ptr) (sep : UInt8) : Option (Option Block) := do
  let (p, l) ← match pp with
    | some p => if sep ≠ 0 then (strlen p.1).map fun l => (p.1.set l sep, l + 1) else some (p.1, 0)
    | none => some ([], 0)
  let (q, _) ← skip_linker_arg s
  let num := s.length - q.length
  (pstrncpy (tcc_realloc p (num + l + 1)) l s num).map some

inductive LinkerOption
  | Bsymbolic | nostdlib | entry | fini | image_base | data_base | defsym | init | Map | oformat | as_needed | O
  | export_dynamic | rpath | enable_new_dtags | section_alignment | soname | whole_archive | z
deriving DecidableEq

open LinkerOption in
/-- The conditions of `tcc_set_linker` in their order. -/
def linker_options : List (List UInt8 × LinkerOption) :=
  [(lit "Bsymbolic", Bsymbolic), (lit "nostdlib", nostdlib), (lit "e=", entry), (lit "entry=", entry),
    (lit "fini=", fini), (lit "image-base=", image_base), (lit "Ttext=", image_base),
    (lit "data-base=", data_base),
    (lit "defsym=", defsym), (lit "init=", init), (lit "Map=", Map), (lit "oformat=", oformat),
    (lit "as-needed", as_needed), (lit "O", O), (lit "export-all-symbols", export_dynamic),
    (lit "export-dynamic", export_dynamic), (lit "rpath=", rpath), (lit "enable-new-dtags", enable_new_dtags),
    (lit "section-alignment=", section_alignment), (lit "soname=", soname),
    (lit "?whole-archive", whole_archive),
    (lit "z=", z)]

/-- The first option that matches, with what `link_option` returned, and the last value of `p`. -/
def find_option (option : Ptr) : List (List UInt8 × LinkerOption) → (p : Option Ptr) →
    Option (Option (LinkerOption × Int) × Option Ptr)
  | [], p => some (none, p)
  | (val, o) :: rest, p => do
    let l ← link_option option val
    let p := l.ptr.or p
    if l.ret ≠ 0 then some (some (o, l.ret), p) else find_option option rest p

/-- What an option does to the state, if it is ignored, and `p` after it; the inner `none` is `goto err`. -/
def apply_option (h : Sizes) (s : TCCState) (p : Ptr) (ret : Int) :
    LinkerOption → Option (Option (TCCState × Bool × Ptr))
  | .Bsymbolic => some (some ({ s with symbolic := true }, false, p))
  | .nostdlib => some (some ({ s with nostdlib := true }, false, p))
  | .entry => do
    let name ← copy_linker_arg s.elf_entryname p 0
    some (some ({ s with elf_entryname := name }, false, p))
  | .fini => do
    let name ← copy_linker_arg s.fini_symbol p 0
    some (some ({ s with fini_symbol := name }, true, p))
  | .image_base => do
    let addr ← strtou 64 p
    some (some ({ s with text_addr := addr % 2 ^ (8 * h.PTR_SIZE), has_text_addr := true }, false, p))
  | .data_base => do
    let addr ← strtou 64 p
    some (some ({ s with data_addr := addr % 2 ^ (8 * h.PTR_SIZE) }, false, p))
  | .defsym => do
    let n ← strlen p
    let sym ← strcpy (tcc_mallocz n) p
    some (some ({ s with defsyms := s.defsyms ++ [sym] }, false, p))
  | .init => do
    let name ← copy_linker_arg s.init_symbol p 0
    some (some ({ s with init_symbol := name }, true, p))
  | .Map => do
    let name ← copy_linker_arg s.mapfile p 0
    some (some ({ s with mapfile := name }, true, p))
  | .oformat => do
    match ← strstart (lit (if h.PTR_SIZE = 8 then "elf64-" else "elf32-")) p with
    | some p => some (some ({ s with output_format := .ELF }, false, p))
    | none =>
      let arg ← cstr p
      if arg = lit "binary" then some (some ({ s with output_format := .BINARY }, false, p)) else some none
  | .as_needed => some (some (s, true, p))
  | .O => some (some (s, true, p))
  | .export_dynamic => some (some ({ s with rdynamic := true }, false, p))
  | .rpath => do
    let path ← copy_linker_arg s.rpath p colon
    some (some ({ s with rpath := path }, false, p))
  | .enable_new_dtags => some (some ({ s with enable_new_dtags := true }, false, p))
  | .section_alignment => do
    let align ← strtou h.ULONG_BITS p
    some (some ({ s with section_align := align % 2 ^ 32 }, false, p))
  | .soname => do
    let name ← copy_linker_arg s.soname p 0
    some (some ({ s with soname := name }, false, p))
  | .whole_archive =>
    if 0 < ret then some (some ({ s with filetype := s.filetype ||| AFF_WHOLE_ARCHIVE }, false, p))
    else some (some ({ s with filetype := s.filetype &&& ~~~AFF_WHOLE_ARCHIVE }, false, p))
  | .z => some (some (s, true, p))

/-- How `tcc_set_linker` ends: it returns 1, or 0 for an option that lacks its argument, or it fails with
    `unsupported linker option`. -/
inductive Outcome
  | accepted (s : TCCState)
  | incomplete (s : TCCState)
  | error (option : List UInt8)

/-- The error names the rest of the string. -/
def unsupported (option : Ptr) : Option Outcome := (cstr option).map .error

/-- One turn of the loop: the outcome, or the next option and the state. -/
def linker_step (h : Sizes) (option : Ptr) (s : TCCState) : Option (Outcome ⊕ Ptr × TCCState) := do
  match ← find_option option linker_options none with
  | (none, some _) => some (.inl (.incomplete s))
  | (none, none) => (unsupported option).map .inl
  | (some (o, ret), p) =>
    match ← apply_option h s (p.getD []) ret o with
    | none => (unsupported option).map .inl
    | some (s, ignoring, p) =>
      if ignoring && s.unsupported_is_error then (unsupported option).map .inl else
        let (_, option) ← skip_linker_arg p
        some (.inr (option, s))

/-- The loop of `tcc_set_linker`, for as many turns as there are bytes. -/
def linker_loop (h : Sizes) : (fuel : Nat) → (option : Ptr) → TCCState → Option Outcome
  | 0, _, _ => none
  | fuel + 1, option, s => do
    let c ← option.head?
    if c = 0 then some (.accepted s) else
      match ← linker_step h option s with
      | .inl out => some out
      | .inr (option, s) => linker_loop h fuel option s

def tcc_set_linker (h : Sizes) (s : TCCState) (option : Ptr) : Option Outcome :=
  linker_loop h option.length option s

end tcc.driver
