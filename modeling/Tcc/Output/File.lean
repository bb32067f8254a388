import Tcc.Machine.Buffer
import Tcc.Output.Segments

/-! The file that is written. -/

namespace tcc.output

open machine.buffer machine.placement tcc.obj

/-- The lowest bytes of a number, the lowest first. -/
def le_bytes : Nat → Nat → obj.Bytes
  | 0, _ => []
  | n + 1, v => BitVec.ofNat 8 v :: le_bytes n (v / 256)

theorem length_le_bytes (n v : Nat) : (le_bytes n v).length = n := by
  induction n generalizing v with
  | zero => rfl
  | succ n ih => rw [le_bytes, List.length_cons, ih]

def ET_REL : Nat := 1

def ET_EXEC : Nat := 2

def ET_DYN : Nat := 3

def EM_RISCV : Nat := 243

def EF_RISCV_FLOAT_ABI_DOUBLE : Nat := 4

def SHDR_SIZE : Nat := 64

/-- The bytes of `ElfW(Ehdr)`: `shnum` counts the sections with the first, which is none. -/
def ehdr_bytes (e_type e_entry phnum e_shoff shnum : Nat) : obj.Bytes :=
  [0x7f#8, 69#8, 76#8, 70#8, 2#8, 1#8, 1#8] ++ List.replicate 9 0#8 ++ le_bytes 2 e_type ++
    le_bytes 2 EM_RISCV ++ le_bytes 4 1 ++ le_bytes 8 e_entry ++
    le_bytes 8 (if phnum = 0 then 0 else EHDR_SIZE) ++ le_bytes 8 e_shoff ++
    le_bytes 4 EF_RISCV_FLOAT_ABI_DOUBLE ++ le_bytes 2 EHDR_SIZE ++
    le_bytes 2 (if phnum = 0 then 0 else PHDR_SIZE) ++ le_bytes 2 phnum ++ le_bytes 2 SHDR_SIZE ++
    le_bytes 2 shnum ++ le_bytes 2 (shnum - 1)

def Phdr.bytes (ph : Phdr) : obj.Bytes :=
  le_bytes 4 ph.p_type.toNat ++ le_bytes 4 ph.p_flags.toNat ++ le_bytes 8 ph.p_offset.toNat ++
    le_bytes 8 ph.p_vaddr.toNat ++ le_bytes 8 ph.p_paddr.toNat ++ le_bytes 8 ph.p_filesz.toNat ++
    le_bytes 8 ph.p_memsz.toNat ++ le_bytes 8 ph.p_align.toNat

theorem length_ehdr_bytes (e_type e_entry phnum e_shoff shnum : Nat) :
    (ehdr_bytes e_type e_entry phnum e_shoff shnum).length = EHDR_SIZE := by
  simp only [ehdr_bytes, List.length_append, length_le_bytes, List.length_replicate]
  rfl

theorem Phdr.length_bytes (ph : Phdr) : ph.bytes.length = PHDR_SIZE := by
  simp only [Phdr.bytes, List.length_append, length_le_bytes]
  rfl

/-- The sections that have a name are written, and are counted anew. -/
def tidy_section_headers (entries : List Entry) : List Entry := entries.filter fun e => e.sec.sh_name ≠ 0#32

/-- The new number of a section; the old one of a section that is not written stays. -/
def new_num (written : List Entry) (num : Nat) : Nat :=
  match written.findIdx? (·.num = num) with
  | some k => k + 1
  | none => num

def backmap (written : List Entry) (num : Nat) : Nat :=
  match written.findIdx? (·.num = num) with
  | some k => k + 1
  | none => 0

/-- The bytes of `ElfW(Shdr)`. -/
def shdr_bytes (written : List Entry) (e : Entry) : obj.Bytes :=
  let s := e.sec
  le_bytes 4 s.sh_name.toNat ++ le_bytes 4 s.sh_type ++ le_bytes 8 (s.sh_flags.signExtend 64).toNat ++
    le_bytes 8 s.sh_addr.toNat ++ le_bytes 8 s.sh_offset.toNat ++ le_bytes 8 s.sh_size.toNat ++
    le_bytes 4 ((s.link.map (new_num written)).getD 0) ++
    le_bytes 4 (if s.sh_type = SHT_RELA then backmap written s.sh_info.toNat else s.sh_info.toNat) ++
    le_bytes 8 (s.sh_addralign.signExtend 64).toNat ++ le_bytes 8 (s.sh_entsize.signExtend 64).toNat

/-- What is written, and the position that is kept of it. -/
structure Out where
  bytes : obj.Bytes
  offset : BitVec 32

/-- `while (offset < sh_offset) fputc(0, f)` -/
def Out.pad (o : Out) (sh_offset : BitVec 64) : Out :=
  let n := sh_offset.toNat - (o.offset.signExtend 64).toNat
  ⟨o.bytes ++ List.replicate n 0#8, o.offset + BitVec.ofNat 32 n⟩

def Out.write (o : Out) (data : obj.Bytes) (size : BitVec 32) : Out :=
  ⟨o.bytes ++ data.take (size.signExtend 64).toNat, o.offset + size⟩

def write_section (data : Nat → obj.Bytes) (o : Out) (e : Entry) : Out :=
  if e.sec.nobits then o
  else (o.pad e.sec.sh_offset).write (data e.num) (e.sec.sh_size.setWidth 32)

/-- `tcc_output_elf` for an executable or a library: `data` has the contents of the sections by
    their numbers. -/
def tcc_output_elf (e_type e_entry : Nat) (l : Layout) (data : Nat → obj.Bytes) : obj.Bytes :=
  let written := if l.phdrs.length = 0 then l.entries else tidy_section_headers l.entries
  let e_shoff := ((l.file_offset + 3#32) &&& -4#32).signExtend 64
  let header := ehdr_bytes e_type e_entry l.phdrs.length e_shoff.toNat (written.length + 1) ++
    l.phdrs.flatMap Phdr.bytes
  let o := written.foldl (write_section data) ⟨header, BitVec.ofNat 32 (EHDR_SIZE + l.phdrs.length * PHDR_SIZE)⟩
  (o.pad e_shoff).bytes ++ List.replicate SHDR_SIZE 0#8 ++ written.flatMap (shdr_bytes written)

def Entry.offset (e : Entry) : Nat := e.sec.sh_offset.toNat

/-- The sections are in the file one behind the other. -/
def InFile : Nat → List Entry → Nat → Prop
  | lo, [], hi => lo ≤ hi
  | lo, e :: rest, hi => lo ≤ e.offset ∧ InFile (e.offset + e.sec.filled) rest hi

theorem InFile.le {lo hi : Nat} {es : List Entry} (hin : InFile lo es hi) : lo ≤ hi := by
  induction es generalizing lo with
  | nil => exact hin
  | cons e es ih =>
    have := ih hin.2
    have := hin.1
    omega

theorem InFile.mono {lo lo' hi : Nat} {es : List Entry} (hle : lo' ≤ lo) (hin : InFile lo es hi) :
    InFile lo' es hi := by
  cases es with
  | nil => exact hle.trans hin
  | cons e es => exact ⟨hle.trans hin.1, hin.2⟩

theorem InFile.append {lo mid hi : Nat} {xs ys : List Entry} (hxs : InFile lo xs mid) (hys : InFile mid ys hi) :
    InFile lo (xs ++ ys) hi := by
  induction xs generalizing lo with
  | nil => exact hys.mono hxs
  | cons e xs ih => exact ⟨hxs.1, ih hxs.2⟩

theorem InFile.filter {lo hi : Nat} {es : List Entry} (hin : InFile lo es hi) (keep : Entry → Bool) :
    InFile lo (es.filter keep) hi := by
  induction es generalizing lo with
  | nil => exact hin
  | cons e es ih =>
    have hrest := ih hin.2
    rw [List.filter_cons]
    split
    · exact ⟨hin.1, hrest⟩
    · exact hrest.mono (hin.1.trans (Nat.le_add_right _ _))

theorem holds_append {bytes xs : obj.Bytes} {offset : Nat} (hholds : Holds bytes offset xs) (more : obj.Bytes) :
    Holds (bytes ++ more) offset xs := by
  intro i hi
  have hsome := hholds i hi
  rw [List.getElem?_eq_getElem hi] at hsome
  obtain ⟨hlt, -⟩ := List.getElem?_eq_some_iff.mp hsome
  rw [List.getElem?_append_left hlt, hholds i hi]

theorem holds_at_end (bytes xs : obj.Bytes) : Holds (bytes ++ xs) bytes.length xs := by
  intro i _
  rw [List.getElem?_append_right (Nat.le_add_right _ _), Nat.add_sub_cancel_left]

/-- The position is where the file ends. -/
def Out.Ok (o : Out) : Prop := o.offset.toNat = o.bytes.length ∧ o.bytes.length < 2 ^ 31

theorem Out.Ok.pad {o : Out} (hok : o.Ok) {sh_offset : BitVec 64} (hle : o.bytes.length ≤ sh_offset.toNat)
    (hlt : sh_offset.toNat < 2 ^ 31) :
    (o.pad sh_offset).Ok ∧ (o.pad sh_offset).bytes.length = sh_offset.toNat ∧
      ∃ more, (o.pad sh_offset).bytes = o.bytes ++ more := by
  have hsign : (o.offset.signExtend 64).toNat = o.bytes.length := by
    rw [toNat_signExtend_of_lt (by rw [hok.1]; exact hok.2), hok.1]
  have hlength : (o.pad sh_offset).bytes.length = sh_offset.toNat := by
    rw [Out.pad, List.length_append, List.length_replicate, hsign]
    omega
  refine ⟨⟨?_, by omega⟩, hlength, _, rfl⟩
  rw [hlength]
  show (o.offset + BitVec.ofNat 32 (sh_offset.toNat - (o.offset.signExtend 64).toNat)).toNat = _
  rw [hsign, BitVec.toNat_add, BitVec.toNat_ofNat, hok.1]
  omega

theorem Out.Ok.write {o : Out} (hok : o.Ok) (data : obj.Bytes) (size : BitVec 32) (hdata : size.toNat ≤ data.length)
    (hlt : o.bytes.length + size.toNat < 2 ^ 31) :
    (o.write data size).Ok ∧ (o.write data size).bytes = o.bytes ++ data.take size.toNat := by
  have hbytes : (o.write data size).bytes = o.bytes ++ data.take size.toNat := by
    rw [Out.write, toNat_signExtend_of_lt (by omega)]
  have hlength : (o.write data size).bytes.length = o.bytes.length + size.toNat := by
    rw [hbytes, List.length_append, List.length_take, Nat.min_eq_left hdata]
  refine ⟨⟨?_, by omega⟩, hbytes⟩
  rw [hlength]
  show (o.offset + size).toNat = _
  rw [BitVec.toNat_add, hok.1]
  omega

/-- Every section is written where it says. -/
theorem write_sections_spec {data : Nat → obj.Bytes} {es : List Entry} {lo hi : Nat} (hin : InFile lo es hi)
    (hhi : hi < 2 ^ 31) (hdata : ∀ e ∈ es, ¬e.sec.nobits → e.sec.size ≤ (data e.num).length) {o : Out}
    (hok : o.Ok) (hle : o.bytes.length ≤ lo) :
    (es.foldl (write_section data) o).Ok ∧ (es.foldl (write_section data) o).bytes.length ≤ hi ∧
      (∃ more, (es.foldl (write_section data) o).bytes = o.bytes ++ more) ∧
      ∀ e ∈ es, ¬e.sec.nobits →
        Holds (es.foldl (write_section data) o).bytes e.offset ((data e.num).take e.sec.size) := by
  induction es generalizing lo o with
  | nil => exact ⟨hok, hle.trans hin, ⟨[], (List.append_nil _).symm⟩, by simp⟩
  | cons e es ih =>
    have hle_hi := hin.2.le
    have hlo := hin.1
    by_cases hnobits : e.sec.nobits
    · have hsame : write_section data o e = o := if_pos hnobits
      obtain ⟨hok', hle', hmore, hall⟩ := ih hin.2 (fun x hx => hdata x (List.mem_cons_of_mem _ hx)) hok (by omega)
      rw [List.foldl_cons, hsame]
      refine ⟨hok', hle', hmore, List.forall_mem_cons.mpr ⟨fun h => absurd hnobits h, hall⟩⟩
    · have hfilled : e.sec.filled = e.sec.size := if_neg hnobits
      have hsize : (e.sec.sh_size.setWidth 32).toNat = e.sec.size := by
        rw [BitVec.toNat_setWidth]
        refine Nat.mod_eq_of_lt ?_
        show e.sec.size < 2 ^ 32
        omega
      have hwrite : write_section data o e =
          (o.pad e.sec.sh_offset).write (data e.num) (e.sec.sh_size.setWidth 32) := if_neg hnobits
      have hoffset : e.offset = e.sec.sh_offset.toNat := rfl
      obtain ⟨hpad, hlength, more, hbytes⟩ := hok.pad (hle.trans hlo) (show e.sec.sh_offset.toNat < _ by omega)
      have hdata_e := hdata e List.mem_cons_self hnobits
      obtain ⟨hok_e, hbytes_e⟩ := hpad.write (data e.num) (e.sec.sh_size.setWidth 32) (by omega) (by omega)
      rw [← hwrite, hsize] at hbytes_e
      rw [← hwrite] at hok_e
      have hlength_e : (write_section data o e).bytes.length = e.offset + e.sec.filled := by
        rw [hbytes_e, List.length_append, List.length_take, hlength, hfilled, hoffset, Nat.min_eq_left hdata_e]
      obtain ⟨hok', hle', ⟨more', hmore'⟩, hall⟩ := ih hin.2
        (fun x hx => hdata x (List.mem_cons_of_mem _ hx)) hok_e hlength_e.le
      rw [List.foldl_cons]
      refine ⟨hok', hle', ⟨more ++ ((data e.num).take e.sec.size ++ more'), ?_⟩,
        List.forall_mem_cons.mpr ⟨fun _ => ?_, hall⟩⟩
      · rw [hmore', hbytes_e, hbytes, List.append_assoc, List.append_assoc]
      · rw [hmore', hbytes_e, hoffset, ← hlength]
        exact holds_append (holds_at_end _ _) _

end tcc.output
