import Tcc.Machine.Numeral

/-! The formatted output of `zig/tcc-wasm.zig`: a format string is matched against a few patterns. -/

open machine.decimal

namespace tcc.wasm

/-- An argument, which for a string is the text up to its zero byte. -/
inductive Arg
  | int (a : BitVec 32)
  | string (a : List Byte)

inductive CType
  | c_int
  | string

/-- `@cVaArg(ap, T)` has no result for an argument of another type. -/
def cVaArg : CType → List Arg → Option (Arg × List Arg)
  | .c_int, .int a :: ap => some (.int a, ap)
  | .string, .string a :: ap => some (.string a, ap)
  | _, _ => none

def cVaArgs : List CType → List Arg → Option (List Arg × List Arg)
  | [], ap => some ([], ap)
  | t :: types, ap => do
    let (a, ap) ← cVaArg t ap
    let (args, ap) ← cVaArgs types ap
    return (a :: args, ap)

/-- A piece of a format string of Zig; `{}` and `{s}` take an argument. -/
inductive Piece
  | arg
  | literal (b : Byte)

structure FormatPattern where
  c_spec : List Byte
  zig_spec : List Piece
  type0 : CType
  type1 : Option CType

def format_patterns : List FormatPattern := [
  -- `%d`
  { c_spec := [37, 100], zig_spec := [.arg], type0 := .c_int, type1 := none },
  -- `%u`
  { c_spec := [37, 117], zig_spec := [.arg], type0 := .c_int, type1 := none },
  -- `%s`
  { c_spec := [37, 115], zig_spec := [.arg], type0 := .string, type1 := none },
  -- `%s%s`
  { c_spec := [37, 115, 37, 115], zig_spec := [.arg, .arg], type0 := .string, type1 := some .string },
  -- `%s:%d`
  { c_spec := [37, 115, 58, 37, 100], zig_spec := [.arg, .literal 58, .arg], type0 := .string, type1 := some .c_int }]

/-- A number with its sign. -/
def print_int (x : Int) : List Byte := if x < 0 then 45 :: decimal_bytes x.natAbs else decimal_bytes x.natAbs

def Arg.text : Arg → List Byte
  | .int a => print_int a.toInt
  | .string a => a

def print : List Piece → List Arg → List Byte
  | .literal b :: spec, args => b :: print spec args
  | .arg :: spec, a :: args => a.text ++ print spec args
  | _, _ => []

/-- `std.fmt.bufPrint` into 512 bytes. -/
def bufPrint (zig_spec : List Piece) (args : List Arg) : Option (List Byte) :=
  if (print zig_spec args).length ≤ 512 then some (print zig_spec args) else none

/-- `std.mem.containsAtLeast(u8, haystack, 1, needle)` -/
def contains (needle : List Byte) : List Byte → Bool
  | [] => false
  | c :: haystack => needle.isPrefixOf (c :: haystack) || contains needle haystack

/-- The loop of `std.mem.replace`, with the number of characters of the needle that are left. -/
def replace (needle replacement : List Byte) : Nat → List Byte → List Byte
  | _, [] => []
  | slide + 1, _ :: input => replace needle replacement slide input
  | 0, c :: input =>
    if needle.isPrefixOf (c :: input) then replacement ++ replace needle replacement (needle.length - 1) input
    else c :: replace needle replacement 0 input

/-- `buf2`, which is filled with zeros; a longer text is out of its bounds. -/
def replace_in_buf (format c_spec buf_slice : List Byte) : Option (List Byte) :=
  let out := replace c_spec buf_slice 0 format
  if out.length ≤ 512 then some (out ++ List.replicate (512 - out.length) 0) else none

/-- The arguments that are left, and the bytes at `str`. -/
structure Printer where
  ap : List Arg
  str : List Byte

/-- `@memcpy(str[0..len], text[0..len])` and `str[len] = 0` -/
def put (str text : List Byte) : List Byte := text ++ 0 :: str.drop (text.length + 1)

/-- The end of each function; an assertion that fails stops the program. -/
def return_text (size : Nat) (text : List Byte) (p : Printer) : Option (Nat × Printer) :=
  if text.length < size then some (text.length, { p with str := put p.str text }) else none

def format_string0 (size : Nat) (format : List Byte) (p : Printer) : Option (Nat × Printer) :=
  if format.count 37 ≠ 0 then some (0, p) else return_text size format p

/-- What `format_string1` and `format_string2` do. -/
def format_args (types : List CType) (size : Nat) (format c_spec : List Byte) (zig_spec : List Piece)
    (p : Printer) : Option (Nat × Printer) :=
  if format.count 37 ≠ c_spec.count 37 ∨ contains c_spec format = false then some (0, p)
  else do
    let (args, ap) ← cVaArgs types p.ap
    let buf_slice ← bufPrint zig_spec args
    let buf2 ← replace_in_buf format c_spec buf_slice
    let len ← buf2.idxOf? 0
    return_text size (buf2.take len) { p with ap := ap }

def format_string1 (size : Nat) (format c_spec : List Byte) (zig_spec : List Piece) (T0 : CType) :
    Printer → Option (Nat × Printer) :=
  format_args [T0] size format c_spec zig_spec

def format_string2 (size : Nat) (format c_spec : List Byte) (zig_spec : List Piece) (T0 T1 : CType) :
    Printer → Option (Nat × Printer) :=
  format_args [T0, T1] size format c_spec zig_spec

def format_pattern (size : Nat) (format : List Byte) (pattern : FormatPattern) (p : Printer) :
    Option (Nat × Printer) :=
  match pattern.type1 with
  | some t1 => format_string2 size format pattern.c_spec pattern.zig_spec pattern.type0 t1 p
  | none => format_string1 size format pattern.c_spec pattern.zig_spec pattern.type0 p

/-- The patterns that are left; without a match the format string itself is the text. -/
def try_patterns (size : Nat) (format : List Byte) : List FormatPattern → Printer → Option (Nat × Printer)
  | [], p => return_text size format p
  | pattern :: patterns, p => do
    let (len2, p) ← format_pattern size format pattern p
    if len2 > 0 then return (len2, p) else try_patterns size format patterns p

def format_string (size : Nat) (format : List Byte) (p : Printer) : Option (Nat × Printer) := do
  let (len, p) ← format_string0 size format p
  if len > 0 then return (len, p) else try_patterns size format format_patterns p

/-- The length that is returned, and the bytes at `str`. -/
def vsnprintf (str : List Byte) (size : Nat) (format : List Byte) (ap : List Arg) : Option (Nat × List Byte) :=
  (format_string size format { ap := ap, str := str }).map fun (len, p) => (len, p.str)

def snprintf (str : List Byte) (size : Nat) (format : List Byte) (ap : List Arg) : Option (Nat × List Byte) :=
  (format_string size format { ap := ap, str := str }).map fun (len, p) => (len, p.str)

def sprintf (str format : List Byte) (ap : List Arg) : Option (Nat × List Byte) :=
  (format_string 512 format { ap := ap, str := str }).map fun (len, p) => (len, p.str)

/-- A string of C. -/
abbrev CString := {text : List Byte // 0#8 ∉ text}

/-- The text around the conversion specifications. -/
abbrev Literal := {text : List Byte // 0#8 ∉ text ∧ 37#8 ∉ text}

/-- The conversion specifications of a format, with their arguments. -/
inductive Request
  | d (a : BitVec 32)
  | u (a : BitVec 32)
  | s (a : CString)
  | ss (a0 a1 : CString)
  | s_d (a0 : CString) (a1 : BitVec 32)

namespace Request

def spec : Request → List Byte
  | d _ => [37, 100]
  | u _ => [37, 117]
  | s _ => [37, 115]
  | ss _ _ => [37, 115, 37, 115]
  | s_d _ _ => [37, 115, 58, 37, 100]

def args : Request → List Arg
  | d a => [.int a]
  | u a => [.int a]
  | s a => [.string a.val]
  | ss a0 a1 => [.string a0.val, .string a1.val]
  | s_d a0 a1 => [.string a0.val, .int a1]

/-- The output that the C standard asks for. -/
def output : Request → List Byte
  | d a => print_int a.toInt
  | u a => decimal_bytes a.toNat
  | s a => a.val
  | ss a0 a1 => a0.val ++ a1.val
  | s_d a0 a1 => a0.val ++ 58 :: print_int a1.toInt

/-- A number for `%u` is below 2^31. -/
def Fits : Request → Prop
  | u a => a.toNat < 2 ^ 31
  | _ => True

def format (r : Request) (before after : Literal) : List Byte := before.val ++ (r.spec ++ after.val)

def text (r : Request) (before after : Literal) : List Byte := before.val ++ (r.output ++ after.val)

end Request

/-- `snprintf` of the C standard, for the text of the whole output. -/
def c_snprintf (str : List Byte) (size : Nat) (text : List Byte) : Nat × List Byte :=
  (text.length, if size = 0 then str else put str (text.take (size - 1)))

def c_sprintf (str text : List Byte) : Nat × List Byte := (text.length, put str text)

section

variable {needle replacement before after : List Byte} {size : Nat} {format : List Byte} {p : Printer}

theorem contains_append (hbefore : 37 ∉ before) (after : List Byte) :
    contains (37 :: needle) (before ++ after) = contains (37 :: needle) after := by
  induction before with
  | nil => rfl
  | cons c before ih =>
    rw [List.mem_cons, not_or] at hbefore
    rw [List.cons_append, contains, List.isPrefixOf_cons_cons, beq_eq_false_iff_ne.mpr hbefore.1, Bool.false_and,
      Bool.false_or, ih hbefore.2]

theorem contains_of_notMem (h : 37 ∉ after) : contains (37 :: needle) after = false := by
  have happend : contains (37 :: needle) (after ++ []) = contains (37 :: needle) [] := contains_append h []
  rwa [List.append_nil] at happend

theorem replace_append (hbefore : 37 ∉ before) (after : List Byte) :
    replace (37 :: needle) replacement 0 (before ++ after) =
      before ++ replace (37 :: needle) replacement 0 after := by
  induction before with
  | nil => rfl
  | cons c before ih =>
    rw [List.mem_cons, not_or] at hbefore
    rw [List.cons_append, replace, List.isPrefixOf_cons_cons, beq_eq_false_iff_ne.mpr hbefore.1, Bool.false_and,
      if_neg (by decide), ih hbefore.2, List.cons_append]

theorem replace_slide (needle replacement before after : List Byte) :
    replace needle replacement before.length (before ++ after) = replace needle replacement 0 after := by
  induction before with
  | nil => rfl
  | cons c before ih => exact ih

/-- The only conversion specification is replaced. -/
theorem replace_spec (hbefore : 37 ∉ before) (hafter : 37 ∉ after) :
    replace (37 :: needle) replacement 0 (before ++ (37 :: needle ++ after)) = before ++ (replacement ++ after) := by
  have hkept : replace (37 :: needle) replacement 0 (after ++ []) =
      after ++ replace (37 :: needle) replacement 0 [] := replace_append hafter []
  rw [List.append_nil, replace, List.append_nil] at hkept
  have hprefix : (37 :: needle).isPrefixOf (37 :: (needle ++ after)) = true :=
    List.isPrefixOf_iff_prefix.mpr (List.prefix_append (37 :: needle) after)
  rw [replace_append hbefore, List.cons_append, replace, if_pos hprefix, List.length_cons, Nat.add_sub_cancel,
    replace_slide, hkept]

/-- The pattern is one for the format. -/
def Matches (format : List Byte) (pattern : FormatPattern) : Prop :=
  format.count 37 = pattern.c_spec.count 37 ∧ contains pattern.c_spec format = true

theorem format_args_skip {types : List CType} {pattern : FormatPattern} (h : ¬Matches format pattern) :
    format_args types size format pattern.c_spec pattern.zig_spec p = some (0, p) := by
  rw [format_args, if_pos]
  rw [Matches, not_and_or, Bool.not_eq_true] at h
  exact h

theorem format_pattern_skip {pattern : FormatPattern} (h : ¬Matches format pattern) :
    format_pattern size format pattern p = some (0, p) := by
  rw [format_pattern]
  split
  · exact format_args_skip h
  · exact format_args_skip h

theorem try_patterns_append {front : List FormatPattern} (hfront : ∀ pattern ∈ front, ¬Matches format pattern)
    (patterns : List FormatPattern) (p : Printer) :
    try_patterns size format (front ++ patterns) p = try_patterns size format patterns p := by
  induction front with
  | nil => rfl
  | cons pattern front ih =>
    rw [List.cons_append, try_patterns, format_pattern_skip (hfront _ List.mem_cons_self)]
    exact ih fun pattern h => hfront pattern (List.mem_cons_of_mem _ h)

theorem format_string0_skip (h : format.count 37 ≠ 0) (p : Printer) : format_string0 size format p = some (0, p) := by
  rw [format_string0, if_pos h]

/-- The first zero of the buffer ends the text. -/
theorem idxOf?_zero {text : List Byte} (h : 0#8 ∉ text) (k : Nat) :
    (text ++ List.replicate k 0#8).idxOf? 0 = if k = 0 then none else some text.length := by
  induction text with
  | nil => cases k <;> rfl
  | cons c text ih =>
    rw [List.mem_cons, not_or] at h
    rw [List.cons_append, List.idxOf?_cons, if_neg (by rw [beq_iff_eq]; exact fun heq => h.1 heq.symm), ih h.2]
    split <;> rfl

end

section

variable {x : Int} {n : Nat} {b : Byte}

theorem range_of_mem_decimal (h : b ∈ decimal_bytes n) : 48 ≤ b.toNat ∧ b.toNat ≤ 57 := by
  rw [decimal_bytes] at h
  split at h
  · rw [List.mem_singleton] at h
    subst h
    decide
  · obtain ⟨d, hd, rfl⟩ := List.mem_map.mp h
    have hlt := Nat.digits_lt_base (by decide : 1 < 10) (List.mem_reverse.mp hd)
    rw [BitVec.toNat_ofNat]
    omega

theorem nul_notMem_decimal (n : Nat) : 0#8 ∉ decimal_bytes n :=
  fun h => absurd (range_of_mem_decimal h).1 (by decide)

theorem nul_notMem_print_int (x : Int) : 0#8 ∉ print_int x := by
  rw [print_int]
  split
  · rw [List.mem_cons, not_or]
    exact ⟨by decide, nul_notMem_decimal _⟩
  · exact nul_notMem_decimal _

/-- `%u` prints what `%d` does for the numbers that are below 2^31. -/
theorem print_int_eq_decimal_iff (a : BitVec 32) : print_int a.toInt = decimal_bytes a.toNat ↔ a.toNat < 2 ^ 31 := by
  rw [print_int]
  constructor
  · intro heq
    by_contra hle
    have hneg : a.toInt < 0 := by
      rw [BitVec.toInt_eq_toNat_cond]
      split <;> omega
    rw [if_pos hneg] at heq
    have hmem : 45#8 ∈ decimal_bytes a.toNat := by
      rw [← heq]
      exact List.mem_cons_self
    have hrange := (range_of_mem_decimal hmem).1
    exact absurd hrange (by decide)
  · intro hlt
    have htoInt : a.toInt = a.toNat := by
      rw [BitVec.toInt_eq_toNat_cond, if_pos (by omega)]
    rw [htoInt, if_neg (by omega), Int.natAbs_natCast]

end

namespace Request

variable {r : Request} {before after : Literal}

/-- The pattern for a format. -/
def pattern : Request → FormatPattern
  | d _ => { c_spec := [37, 100], zig_spec := [.arg], type0 := .c_int, type1 := none }
  | u _ => { c_spec := [37, 117], zig_spec := [.arg], type0 := .c_int, type1 := none }
  | s _ => { c_spec := [37, 115], zig_spec := [.arg], type0 := .string, type1 := none }
  | ss _ _ => { c_spec := [37, 115, 37, 115], zig_spec := [.arg, .arg], type0 := .string, type1 := some .string }
  | s_d _ _ =>
    { c_spec := [37, 115, 58, 37, 100], zig_spec := [.arg, .literal 58, .arg], type0 := .string, type1 := some .c_int }

/-- What the pattern prints. -/
def printed : Request → List Byte
  | u a => print_int a.toInt
  | r => r.output

def printed_text (r : Request) (before after : Literal) : List Byte := before.val ++ (r.printed ++ after.val)

theorem c_spec_eq (r : Request) : r.pattern.c_spec = r.spec := by
  cases r <;> rfl

theorem exists_spec (r : Request) : ∃ needle, r.spec = 37 :: needle := by
  cases r <;> exact ⟨_, rfl⟩

theorem count_format (r : Request) (before after : Literal) : (r.format before after).count 37 = r.spec.count 37 := by
  have hbefore : before.val.count 37 = 0 := List.count_eq_zero.mpr before.property.2
  have hafter : after.val.count 37 = 0 := List.count_eq_zero.mpr after.property.2
  rw [format, List.count_append, List.count_append, hbefore, hafter, Nat.zero_add, Nat.add_zero]

theorem matches_pattern (r : Request) (before after : Literal) : Matches (r.format before after) r.pattern := by
  obtain ⟨needle, hspec⟩ := r.exists_spec
  refine ⟨?_, ?_⟩
  · rw [count_format, c_spec_eq]
  · rw [c_spec_eq, format, hspec, contains_append before.property.2, List.cons_append, contains, Bool.or_eq_true]
    exact .inl (List.isPrefixOf_iff_prefix.mpr (List.prefix_append (37 :: needle) after.val))

/-- No other pattern is one for the format. -/
theorem patterns_split (r : Request) (before after : Literal) : ∃ front back,
    format_patterns = front ++ r.pattern :: back ∧
      (∀ pattern ∈ front, ¬Matches (r.format before after) pattern) ∧
      ∀ pattern ∈ back, ¬Matches (r.format before after) pattern := by
  have hcount {pattern : FormatPattern} (n : Nat) (hn : r.spec.count 37 = n)
      (h : n ≠ pattern.c_spec.count 37) : ¬Matches (r.format before after) pattern :=
    fun hmatches => h (by rw [← hn, ← r.count_format before after, hmatches.1])
  have hother {pattern : FormatPattern} {needle : List Byte} (hneedle : pattern.c_spec = 37 :: needle)
      (h : contains (37 :: needle) (r.spec ++ after.val) = false) : ¬Matches (r.format before after) pattern := by
    intro hmatches
    have hcontains := hmatches.2
    rw [hneedle, format, contains_append before.property.2, h] at hcontains
    exact Bool.false_ne_true hcontains
  have hafter (needle : List Byte) : contains (37#8 :: needle) after.val = false := contains_of_notMem after.property.2
  cases r with
  | d a =>
    refine ⟨[], _, rfl, by simp, ?_⟩
    simp only [List.forall_mem_cons]
    refine ⟨hother rfl ?_, hother rfl ?_, hcount 1 rfl (by decide), hcount 1 rfl (by decide), by simp⟩
    · simp [spec, contains, List.isPrefixOf, hafter]
    · simp [spec, contains, List.isPrefixOf, hafter]
  | u a =>
    refine ⟨[_], _, rfl, ?_, ?_⟩
    · simp only [List.forall_mem_cons]
      refine ⟨hother rfl ?_, by simp⟩
      simp [spec, contains, List.isPrefixOf, hafter]
    · simp only [List.forall_mem_cons]
      refine ⟨hother rfl ?_, hcount 1 rfl (by decide), hcount 1 rfl (by decide), by simp⟩
      simp [spec, contains, List.isPrefixOf, hafter]
  | s a =>
    refine ⟨[_, _], _, rfl, ?_, ?_⟩
    · simp only [List.forall_mem_cons]
      refine ⟨hother rfl ?_, hother rfl ?_, by simp⟩
      · simp [spec, contains, List.isPrefixOf, hafter]
      · simp [spec, contains, List.isPrefixOf, hafter]
    · simp only [List.forall_mem_cons]
      exact ⟨hcount 1 rfl (by decide), hcount 1 rfl (by decide), by simp⟩
  | ss a0 a1 =>
    refine ⟨[_, _, _], _, rfl, ?_, ?_⟩
    · simp only [List.forall_mem_cons]
      exact ⟨hcount 2 rfl (by decide), hcount 2 rfl (by decide), hcount 2 rfl (by decide), by simp⟩
    · simp only [List.forall_mem_cons]
      refine ⟨hother rfl ?_, by simp⟩
      -- the second specification could begin the other pattern, whose second one is then missing
      have hcolon : [58#8, 37#8, 100#8].isPrefixOf after.val = false := by
        rw [Bool.eq_false_iff]
        exact fun h => after.property.2 ((List.isPrefixOf_iff_prefix.mp h).subset (by simp))
      simp [spec, contains, List.isPrefixOf, hafter, hcolon]
  | s_d a0 a1 =>
    refine ⟨[_, _, _, _], _, rfl, ?_, by simp⟩
    simp only [List.forall_mem_cons]
    refine ⟨hcount 2 rfl (by decide), hcount 2 rfl (by decide), hcount 2 rfl (by decide), hother rfl ?_, by simp⟩
    simp [spec, contains, List.isPrefixOf, hafter]

/-- What the pattern of a format leaves at `str`. -/
theorem format_pattern_hit (r : Request) (before after : Literal) (more : List Arg) (str : List Byte) (size : Nat) :
    format_pattern size (r.format before after) r.pattern { ap := r.args ++ more, str := str } =
      if (r.printed_text before after).length < 512 then
        return_text size (r.printed_text before after) { ap := more, str := str }
      else none := by
  obtain ⟨needle, hspec⟩ := r.exists_spec
  have hreplace : replace r.spec r.printed 0 (r.format before after) = r.printed_text before after := by
    rw [format, hspec, replace_spec before.property.2 after.property.2, printed_text]
  have hnul : 0#8 ∉ r.printed_text before after := by
    have hprinted : 0#8 ∉ r.printed := by
      cases r with
      | d a => exact nul_notMem_print_int _
      | u a => exact nul_notMem_print_int _
      | s a => exact a.property
      | ss a0 a1 => simpa [printed, output] using ⟨a0.property, a1.property⟩
      | s_d a0 a1 => simpa [printed, output] using ⟨a0.property, nul_notMem_print_int _⟩
    simp only [printed_text, List.mem_append, not_or]
    exact ⟨before.property.1, hprinted, after.property.1⟩
  have hargs (types : List CType) (htypes : cVaArgs types (r.args ++ more) = some (r.args, more))
      (hprint : print r.pattern.zig_spec r.args = r.printed) :
      format_args types size (r.format before after) r.pattern.c_spec r.pattern.zig_spec
        { ap := r.args ++ more, str := str } =
      if (r.printed_text before after).length < 512 then
        return_text size (r.printed_text before after) { ap := more, str := str }
      else none := by
    have hmatches := r.matches_pattern before after
    have hlength : r.printed.length ≤ (r.printed_text before after).length := by
      rw [printed_text, List.length_append, List.length_append]
      omega
    rw [format_args, if_neg (by rw [not_or, not_not, Bool.not_eq_false]; exact hmatches), htypes]
    simp only [Option.bind_eq_bind, Option.bind_some, bufPrint, hprint]
    by_cases hfits : (r.printed_text before after).length ≤ 512
    · rw [if_pos (by omega), Option.bind_some, replace_in_buf, c_spec_eq, hreplace]
      have hfind : (r.printed_text before after ++
          List.replicate (512 - (r.printed_text before after).length) 0).idxOf? 0 = _ := idxOf?_zero hnul _
      simp only [if_pos hfits, Option.bind_some, hfind]
      by_cases hlt : (r.printed_text before after).length < 512
      · rw [if_neg (by omega), if_pos hlt, Option.bind_some, List.take_left]
      · rw [if_pos (by omega), if_neg hlt, Option.bind_none]
    · rw [if_neg (by omega : ¬(r.printed_text before after).length < 512)]
      split
      · rw [Option.bind_some, replace_in_buf, c_spec_eq, hreplace, if_neg hfits, Option.bind_none]
      · rfl
  cases r <;> exact hargs _ rfl (by simp [print, pattern, args, printed, output, Arg.text])

/-- A text that is not empty ends the search, and an empty one makes the format string the text. -/
theorem format_string_eq (r : Request) (before after : Literal) (more : List Arg) (str : List Byte) (size : Nat) :
    format_string size (r.format before after) { ap := r.args ++ more, str := str } =
      if (r.printed_text before after).length < 512 ∧ (r.printed_text before after).length < size then
        if 0 < (r.printed_text before after).length then
          some ((r.printed_text before after).length,
            { ap := more, str := put str (r.printed_text before after) })
        else return_text size (r.format before after)
          { ap := more, str := put str (r.printed_text before after) }
      else none := by
  obtain ⟨front, back, hpatterns, hfront, hback⟩ := r.patterns_split before after
  have hcount : (r.format before after).count 37 ≠ 0 := by
    obtain ⟨needle, hspec⟩ := r.exists_spec
    rw [count_format, hspec, List.count_cons_self]
    exact Nat.succ_ne_zero _
  have hend (p : Printer) : try_patterns size (r.format before after) back p =
      return_text size (r.format before after) p := by
    have happend : try_patterns size (r.format before after) (back ++ []) p =
        try_patterns size (r.format before after) [] p := try_patterns_append hback [] p
    rwa [List.append_nil] at happend
  rw [format_string, format_string0_skip hcount]
  simp only [Option.bind_eq_bind, Option.bind_some, gt_iff_lt, lt_irrefl, if_false]
  rw [hpatterns, try_patterns_append hfront, try_patterns, format_pattern_hit, return_text]
  by_cases h512 : (r.printed_text before after).length < 512
  · by_cases hsize : (r.printed_text before after).length < size
    · simp only [h512, hsize, and_self_iff, if_true, Option.bind_eq_bind, Option.bind_some, gt_iff_lt, hend]
      rfl
    · rw [if_pos h512, if_neg hsize, if_neg fun h => hsize h.2]
      rfl
  · rw [if_neg h512, if_neg fun h => h512 h.1]
    rfl

theorem printed_text_eq_iff (r : Request) (before after : Literal) :
    r.printed_text before after = r.text before after ↔ r.Fits := by
  rw [printed_text, text, List.append_cancel_left_eq, List.append_cancel_right_eq]
  cases r with
  | u a => exact print_int_eq_decimal_iff a
  | d a => exact iff_of_true rfl trivial
  | s a => exact iff_of_true rfl trivial
  | ss a0 a1 => exact iff_of_true rfl trivial
  | s_d a0 a1 => exact iff_of_true rfl trivial

/-- Only a string can print nothing. -/
theorem fits_of_printed_text_nil (h : (r.printed_text before after).length = 0) : r.Fits := by
  have hprinted : r.printed.length = 0 := by
    rw [printed_text, List.length_append, List.length_append] at h
    omega
  cases r with
  | u a =>
    by_contra hlarge
    have hneg : a.toInt < 0 := by
      rw [Fits] at hlarge
      rw [BitVec.toInt_eq_toNat_cond]
      split <;> omega
    rw [printed, print_int, if_pos hneg] at hprinted
    exact absurd hprinted (Nat.succ_ne_zero _)
  | d a => trivial
  | s a => trivial
  | ss a0 a1 => trivial
  | s_d a0 a1 => trivial

theorem put_inj {str text text' : List Byte} (hlength : text.length = text'.length)
    (h : put str text = put str text') : text = text' := (List.append_inj h hlength).1

/-- The result is that of a function that leaves the whole text, if there is room for it. -/
theorem format_string_iff (r : Request) (before after : Literal) (more : List Arg) {str out : List Byte} {size : Nat}
    (hout : (r.text before after).length < size → out = put str (r.text before after)) :
    (format_string size (r.format before after) { ap := r.args ++ more, str := str }).map
        (fun (len, p) => (len, p.str)) = some ((r.text before after).length, out) ↔
      0 < (r.text before after).length ∧ (r.text before after).length < 512 ∧
        (r.text before after).length < size ∧ r.Fits := by
  rw [format_string_eq]
  constructor
  · intro hrun
    split at hrun
    · rename_i hroom
      split at hrun
      · rename_i hpos
        simp only [Option.map_some, Option.some.injEq, Prod.mk.injEq] at hrun
        obtain ⟨hlength, hput⟩ := hrun
        rw [hout (by omega)] at hput
        have heq := put_inj hlength hput
        rw [heq] at hpos hroom
        exact ⟨hpos, hroom.1, hroom.2, (r.printed_text_eq_iff before after).mp heq⟩
      · -- the format string is the text, but it is not empty
        rename_i hpos
        have hnil : (r.printed_text before after).length = 0 := by omega
        have heq := (r.printed_text_eq_iff before after).mpr (fits_of_printed_text_nil hnil)
        rw [return_text] at hrun
        split at hrun
        · simp only [Option.map_some, Option.some.injEq, Prod.mk.injEq] at hrun
          obtain ⟨needle, hspec⟩ := r.exists_spec
          have hlength := hrun.1
          rw [← heq, format, hspec, List.length_append, List.length_append, List.length_cons] at hlength
          omega
        · exact absurd hrun (by simp)
    · exact absurd hrun (by simp)
  · rintro ⟨hpos, h512, hsize, hfits⟩
    rw [(r.printed_text_eq_iff before after).mpr hfits, if_pos ⟨h512, hsize⟩, if_pos hpos, Option.map_some, hout hsize]

theorem c_snprintf_room {str text : List Byte} {size : Nat} (h : text.length < size) :
    (c_snprintf str size text).2 = put str text := by
  rw [c_snprintf, if_neg (by omega), List.take_of_length_le (by omega)]

end Request

/-- The functions do what those of C do exactly for a text that is not empty and fits in the buffer. -/
theorem formatted_output_iff (r : Request) (before after : Literal) (more : List Arg) (str : List Byte) (size : Nat) :
    (vsnprintf str size (r.format before after) (r.args ++ more) = some (c_snprintf str size (r.text before after)) ↔
      0 < (r.text before after).length ∧ (r.text before after).length < 512 ∧
        (r.text before after).length < size ∧ r.Fits) ∧
    (snprintf str size (r.format before after) (r.args ++ more) = some (c_snprintf str size (r.text before after)) ↔
      0 < (r.text before after).length ∧ (r.text before after).length < 512 ∧
        (r.text before after).length < size ∧ r.Fits) ∧
    (sprintf str (r.format before after) (r.args ++ more) = some (c_sprintf str (r.text before after)) ↔
      0 < (r.text before after).length ∧ (r.text before after).length < 512 ∧ r.Fits) := by
  refine ⟨r.format_string_iff before after more Request.c_snprintf_room,
    r.format_string_iff before after more Request.c_snprintf_room, ?_⟩
  have hiff := @Request.format_string_iff r before after more str (put str (r.text before after)) 512 fun _ => rfl
  exact hiff.trans ⟨fun h => ⟨h.1, h.2.1, h.2.2.2⟩, fun h => ⟨h.1, h.2.1, h.2.1, h.2.2⟩⟩

/-- The empty string for `%s`: the format string is printed. -/
theorem empty_string_prints_format :
    ¬∀ (r : Request) (before after : Literal) (str : List Byte) (size : Nat),
      snprintf str size (r.format before after) r.args = some (c_snprintf str size (r.text before after)) := by
  intro hall
  have hrun := hall (.s ⟨[], by simp⟩) ⟨[], by simp⟩ ⟨[], by simp⟩ (List.replicate 16 0) 16
  have hlength := congrArg (Option.map Prod.fst) hrun
  exact absurd hlength (by decide)

end tcc.wasm
