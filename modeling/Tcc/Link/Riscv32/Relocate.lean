import Tcc.Link.Relocate

namespace tcc.link.riscv32

open RelocType

/-- A dynamic relocation written through `qrel`. -/
structure DynRel where
  r_offset : BitVec 32
  sym : Nat
  type : DynType
  deriving DecidableEq, Repr

/-- The fields of an `ElfW_Rel` entry. -/
structure Rel where
  r_offset : BitVec 32
  sym : Nat
  deriving DecidableEq, Repr

/-- The place and value of the last `HI20` relocation. -/
structure PcrelHi where
  addr : BitVec 32
  val : BitVec 32
  deriving DecidableEq, Repr

/-- What `relocate` reads and writes of the linker state. -/
structure LinkState where
  data : Bytes
  last_hi : PcrelHi
  got_sh_addr : BitVec 32
  got_offset : Nat → BitVec 32
  dyn_index : Nat → Nat
  sym_name : Nat → String
  output_dll : Bool
  qrel : List DynRel
  nb_errors : Nat

/-- The words of the call relocations: the rounded high part and the low part of a
    displacement. -/
def patchCallHi (w off : BitVec 32) : BitVec 32 :=
  (w &&& 0xfff#32) ||| ((off + 0x800#32) &&& ~~~0xfff#32)

def patchLoI (w off : BitVec 32) : BitVec 32 := (w &&& 0xfffff#32) ||| ((off &&& 0xfff#32) <<< 20)

/-- The displacement in pages of the `HI20` relocations. The sum has 32 bits and is
    extended with zeros. -/
def pages (off : BitVec 32) : BitVec 64 := ((off + 0x800#32).setWidth 64).sshiftRight 12

/-- `relocate` of `riscv32-link.c`. `addr_t` has 32 bits: a displacement is extended with
    zeros when it is stored in `off64`. -/
def relocate (s1 : LinkState) (rel : Rel) (type : RelocType) (ptr : Nat) (addr val : BitVec 32) :
    Except RelocError LinkState :=
  match type with
  | R_RISCV_ALIGN | R_RISCV_RELAX => .ok s1
  | R_RISCV_BRANCH =>
    let off64 := (val - addr).setWidth 64
    if (off64 + 0x1000#64) &&& ~~~0x1ffe#64 ≠ 0#64 then
      .error (.overflow "R_RISCV_BRANCH" (val.setWidth 64) (addr.setWidth 64))
    else
      let off32 := off64.setWidth 32
      .ok { s1 with data := write32le s1.data ptr (patchBranch (read32le s1.data ptr) off32) }
  | R_RISCV_JAL =>
    let off64 := (val - addr).setWidth 64
    if (off64 + 0x200000#64) &&& ~~~0x3ffffe#64 ≠ 0#64 then
      .error (.overflow "R_RISCV_JAL" (val.setWidth 64) (addr.setWidth 64))
    else
      let off32 := off64.setWidth 32
      .ok { s1 with data := write32le s1.data ptr (patchJal (read32le s1.data ptr) off32) }
  | R_RISCV_CALL | R_RISCV_CALL_PLT =>
    let data := write32le s1.data ptr (patchCallHi (read32le s1.data ptr) (val - addr))
    let data := write32le data (ptr + 4) (patchLoI (read32le data (ptr + 4)) (val - addr))
    .ok { s1 with data }
  | R_RISCV_PCREL_HI20 =>
    let off64 := pages (val - addr)
    if (off64 + 0x100000#64) >>> 21 ≠ 0#64 then
      .error (.pcrelHi20 off64 (s1.sym_name rel.sym))
    else
      let data := write32le s1.data ptr (patchHi20 (read32le s1.data ptr) off64)
      .ok { s1 with data, last_hi := ⟨addr, val⟩ }
  | R_RISCV_GOT_HI20 =>
    let val := s1.got_sh_addr + s1.got_offset rel.sym
    let off64 := pages (val - addr)
    if (off64 + 0x100000#64) >>> 21 ≠ 0#64 then
      .error .gotHi20
    else
      let data := write32le s1.data ptr (patchHi20 (read32le s1.data ptr) off64)
      .ok { s1 with last_hi := ⟨addr, val⟩, data }
  | R_RISCV_PCREL_LO12_I =>
    if val ≠ s1.last_hi.addr then
      .error .hiLoScheme
    else
      let val := s1.last_hi.val
      let addr := s1.last_hi.addr
      .ok { s1 with data := write32le s1.data ptr (patchLoI (read32le s1.data ptr) (val - addr)) }
  | R_RISCV_PCREL_LO12_S =>
    if val ≠ s1.last_hi.addr then
      .error .hiLoScheme
    else
      let val := s1.last_hi.val
      let addr := s1.last_hi.addr
      .ok { s1 with data := write32le s1.data ptr (patchLoS (read32le s1.data ptr) (val - addr)) }
  | R_RISCV_RVC_BRANCH =>
    let off64 := (val - addr).setWidth 64
    if (off64 + 0x100#64) &&& ~~~0x1fe#64 ≠ 0#64 then
      .error (.overflow "R_RISCV_RVC_BRANCH" (val.setWidth 64) (addr.setWidth 64))
    else
      let off32 := off64.setWidth 32
      .ok { s1 with data := write16le s1.data ptr (patchRvcBranch (read16le s1.data ptr) off32) }
  | R_RISCV_RVC_JUMP =>
    let off64 := (val - addr).setWidth 64
    if (off64 + 0x800#64) &&& ~~~0xffe#64 ≠ 0#64 then
      .error (.overflow "R_RISCV_RVC_BRANCH" (val.setWidth 64) (addr.setWidth 64))
    else
      let off32 := off64.setWidth 32
      .ok { s1 with data := write16le s1.data ptr (patchRvcJump (read16le s1.data ptr) off32) }
  | R_RISCV_32 =>
    let s1 := if s1.output_dll then
        { s1 with qrel := s1.qrel ++ [⟨rel.r_offset, 0, .R_RISCV_RELATIVE⟩] }
      else s1
    .ok { s1 with data := add32le s1.data ptr val }
  | R_RISCV_64 =>
    if s1.output_dll then
      let esym_index := s1.dyn_index rel.sym
      if esym_index ≠ 0 then
        .ok { s1 with qrel := s1.qrel ++ [⟨rel.r_offset, esym_index, .R_RISCV_64⟩] }
      else
        .ok { s1 with
          qrel := s1.qrel ++ [⟨rel.r_offset, 0, .R_RISCV_RELATIVE⟩]
          data := add32le s1.data ptr val }
    else
      .ok { s1 with data := add32le s1.data ptr val }
  | R_RISCV_JUMP_SLOT => .ok { s1 with data := add32le s1.data ptr val }
  | R_RISCV_ADD64 =>
    .ok { s1 with
      data := write64le s1.data ptr (read64le s1.data ptr + val.setWidth 64)
      nb_errors := s1.nb_errors + 1 }
  | R_RISCV_ADD32 => .ok { s1 with data := write32le s1.data ptr (read32le s1.data ptr + val) }
  | R_RISCV_SUB64 =>
    .ok { s1 with
      data := write64le s1.data ptr (read64le s1.data ptr - val.setWidth 64)
      nb_errors := s1.nb_errors + 1 }
  | R_RISCV_SUB32 => .ok { s1 with data := write32le s1.data ptr (read32le s1.data ptr - val) }
  | R_RISCV_ADD16 =>
    .ok { s1 with data := write16le s1.data ptr (read16le s1.data ptr + val.setWidth 16) }
  | R_RISCV_SUB16 =>
    .ok { s1 with data := write16le s1.data ptr (read16le s1.data ptr - val.setWidth 16) }
  | R_RISCV_SET6 =>
    let b := (s1.data ptr &&& ~~~0x3f#8) ||| (val.setWidth 8 &&& 0x3f#8)
    .ok { s1 with data := Function.update s1.data ptr b }
  | R_RISCV_SUB6 =>
    let b := (s1.data ptr &&& ~~~0x3f#8) ||| ((s1.data ptr - val.setWidth 8) &&& 0x3f#8)
    .ok { s1 with data := Function.update s1.data ptr b }
  | R_RISCV_32_PCREL | R_RISCV_COPY => .ok s1
  | other _ => .ok s1

end tcc.link.riscv32
