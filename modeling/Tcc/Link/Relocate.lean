import Tcc.Bytes

namespace tcc.link

/-- The relocation types that `relocate` tells apart. -/
inductive RelocType where
  | R_RISCV_32 | R_RISCV_64 | R_RISCV_COPY | R_RISCV_JUMP_SLOT
  | R_RISCV_BRANCH | R_RISCV_JAL | R_RISCV_CALL | R_RISCV_CALL_PLT
  | R_RISCV_GOT_HI20 | R_RISCV_PCREL_HI20 | R_RISCV_PCREL_LO12_I | R_RISCV_PCREL_LO12_S
  | R_RISCV_ADD16 | R_RISCV_ADD32 | R_RISCV_ADD64
  | R_RISCV_SUB16 | R_RISCV_SUB32 | R_RISCV_SUB64
  | R_RISCV_ALIGN | R_RISCV_RVC_BRANCH | R_RISCV_RVC_JUMP | R_RISCV_RELAX
  | R_RISCV_SUB6 | R_RISCV_SET6 | R_RISCV_32_PCREL
  | other (type : Nat)
  deriving DecidableEq, Repr

open RelocType

/-- The types `relocate` may write into a dynamic relocation entry. -/
inductive DynType where
  | R_RISCV_RELATIVE | R_RISCV_64
  deriving DecidableEq, Repr

/-- A dynamic relocation written through `qrel`. -/
structure DynRel where
  r_offset : BitVec 64
  sym : Nat
  type : DynType
  r_addend : BitVec 64
  deriving DecidableEq, Repr

/-- The fields of an `ElfW_Rel` entry. -/
structure Rel where
  r_offset : BitVec 64
  sym : Nat
  r_addend : BitVec 64
  deriving DecidableEq, Repr

/-- The place and value of the last `HI20` relocation. -/
structure PcrelHi where
  addr : BitVec 64
  val : BitVec 64
  deriving DecidableEq, Repr

/-- What `relocate` reads and writes of the linker state: the section contents,
    the last high part, the GOT, the symbol attributes and names, and the
    dynamic relocations written so far. -/
structure LinkState where
  data : Bytes
  last_hi : PcrelHi
  got_sh_addr : BitVec 64
  got_offset : Nat → BitVec 64
  dyn_index : Nat → Nat
  sym_name : Nat → String
  output_dyn : Bool
  qrel : List DynRel

/-- The errors `relocate` aborts with. -/
inductive RelocError where
  | overflow (name : String) (val addr : BitVec 64)
  | pcrelHi20 (off64 : BitVec 64) (sym : String)
  | gotHi20
  | hiLoScheme
  deriving DecidableEq, Repr

def hex (x : BitVec 64) : String := String.ofList (Nat.toDigits 16 x.toNat)

def RelocError.message : RelocError → String
  | .overflow name val addr => s!"{name} relocation failed (val={hex val}, addr={hex addr})"
  | .pcrelHi20 off64 sym =>
    s!"R_RISCV_PCREL_HI20 relocation failed: off={hex off64} cond={hex ((off64 + 0x100000#64).sshiftRight 21)} sym={sym}"
  | .gotHi20 => "R_RISCV_GOT_HI20 relocation failed"
  | .hiLoScheme => "unsupported hi/lo pcrel reloc scheme"

/-- The word `R_RISCV_BRANCH` writes for half the displacement. -/
def patchBranch (w off32 : BitVec 32) : BitVec 32 :=
  (w &&& ~~~0xfe000f80#32) ||| ((off32 &&& 0x800#32) <<< 20) ||| ((off32 &&& 0x3f0#32) <<< 21) |||
    ((off32 &&& 0x00f#32) <<< 8) ||| ((off32 &&& 0x400#32) >>> 3)

/-- The word `R_RISCV_JAL` writes for a displacement. -/
def patchJal (w off32 : BitVec 32) : BitVec 32 :=
  (w &&& 0xfff#32) ||| (((off32 >>> 12) &&& 0xff#32) <<< 12) |||
    (((off32 >>> 11) &&& 1#32) <<< 20) ||| (((off32 >>> 1) &&& 0x3ff#32) <<< 21) |||
    (((off32 >>> 20) &&& 1#32) <<< 31)

/-- The `auipc` word the call relocations write; the high part is cut to 32
    bits by the store. -/
def patchCallHi (w : BitVec 32) (off64 : BitVec 64) : BitVec 32 :=
  ((w &&& 0xfff#32).setWidth 64 ||| ((off64 + 0x800#64) &&& ~~~0xfff#64)).setWidth 32

/-- The word with an I-type low part that the call and `LO12_I` relocations write. -/
def patchLoI (w : BitVec 32) (off64 : BitVec 64) : BitVec 32 :=
  ((w &&& 0xfffff#32).setWidth 64 ||| ((off64 &&& 0xfff#64) <<< 20)).setWidth 32

/-- The `auipc` word the `HI20` relocations write for a displacement in pages. -/
def patchHi20 (w : BitVec 32) (off64 : BitVec 64) : BitVec 32 :=
  ((w &&& 0xfff#32).setWidth 64 ||| ((off64 &&& 0xfffff#64) <<< 12)).setWidth 32

/-- The word with an S-type low part that `LO12_S` writes. -/
def patchLoS (w off32 : BitVec 32) : BitVec 32 :=
  (w &&& ~~~0xfe000f80#32) ||| ((off32 &&& 0xfe0#32) <<< 20) ||| ((off32 &&& 0x01f#32) <<< 7)

/-- The half word `R_RISCV_RVC_BRANCH` writes for a displacement. -/
def patchRvcBranch (w : BitVec 16) (off32 : BitVec 32) : BitVec 16 :=
  ((w.setWidth 32 &&& 0xe383#32) ||| (((off32 >>> 5) &&& 1#32) <<< 2) |||
    (((off32 >>> 1) &&& 3#32) <<< 3) ||| (((off32 >>> 6) &&& 3#32) <<< 5) |||
    (((off32 >>> 3) &&& 3#32) <<< 10) ||| (((off32 >>> 8) &&& 1#32) <<< 12)).setWidth 16

/-- The half word `R_RISCV_RVC_JUMP` writes for a displacement. -/
def patchRvcJump (w : BitVec 16) (off32 : BitVec 32) : BitVec 16 :=
  ((w.setWidth 32 &&& 0xe003#32) ||| (((off32 >>> 5) &&& 1#32) <<< 2) |||
    (((off32 >>> 1) &&& 7#32) <<< 3) ||| (((off32 >>> 7) &&& 1#32) <<< 6) |||
    (((off32 >>> 6) &&& 1#32) <<< 7) ||| (((off32 >>> 10) &&& 1#32) <<< 8) |||
    (((off32 >>> 8) &&& 3#32) <<< 9) ||| (((off32 >>> 4) &&& 1#32) <<< 11) |||
    (((off32 >>> 11) &&& 1#32) <<< 12)).setWidth 16

/-- `relocate` of `riscv64-link.c`: patch the bytes at `ptr`, which will stand at
    address `addr`, for the target `val`. The call relocations check no range;
    the errors of `R_RISCV_RVC_JUMP` name the branch type, as in the source. -/
def relocate (s1 : LinkState) (rel : Rel) (type : RelocType) (ptr : Nat) (addr val : BitVec 64) :
    Except RelocError LinkState :=
  match type with
  | R_RISCV_ALIGN | R_RISCV_RELAX => .ok s1
  | R_RISCV_BRANCH =>
    let off64 := val - addr
    if (off64 + 0x1000#64) &&& ~~~0x1ffe#64 ≠ 0#64 then
      .error (.overflow "R_RISCV_BRANCH" val addr)
    else
      let off32 := (off64 >>> 1).setWidth 32
      .ok { s1 with data := write32le s1.data ptr (patchBranch (read32le s1.data ptr) off32) }
  | R_RISCV_JAL =>
    let off64 := val - addr
    if (off64 + 0x200000#64) &&& ~~~0x3ffffe#64 ≠ 0#64 then
      .error (.overflow "R_RISCV_JAL" val addr)
    else
      let off32 := off64.setWidth 32
      .ok { s1 with data := write32le s1.data ptr (patchJal (read32le s1.data ptr) off32) }
  | R_RISCV_CALL | R_RISCV_CALL_PLT =>
    let data := write32le s1.data ptr (patchCallHi (read32le s1.data ptr) (val - addr))
    let data := write32le data (ptr + 4) (patchLoI (read32le data (ptr + 4)) (val - addr))
    .ok { s1 with data }
  | R_RISCV_PCREL_HI20 =>
    let off64 := (val - addr + 0x800#64).sshiftRight 12
    if (off64 + 0x100000#64) >>> 21 ≠ 0#64 then
      .error (.pcrelHi20 off64 (s1.sym_name rel.sym))
    else
      let data := write32le s1.data ptr (patchHi20 (read32le s1.data ptr) off64)
      .ok { s1 with data, last_hi := ⟨addr, val⟩ }
  | R_RISCV_GOT_HI20 =>
    let val := s1.got_sh_addr + s1.got_offset rel.sym
    let off64 := (val - addr + 0x800#64).sshiftRight 12
    if (off64 + 0x100000#64) >>> 21 ≠ 0#64 then
      .error .gotHi20
    else
      let data := write32le s1.data ptr (patchHi20 (read32le s1.data ptr) off64)
      .ok { s1 with last_hi := ⟨addr, val⟩, data }
  | R_RISCV_PCREL_LO12_I =>
    if val ≠ s1.last_hi.addr then
      .error .hiLoScheme
    else
      let val := s1.last_hi.val
      let addr := s1.last_hi.addr
      .ok { s1 with data := write32le s1.data ptr (patchLoI (read32le s1.data ptr) (val - addr)) }
  | R_RISCV_PCREL_LO12_S =>
    if val ≠ s1.last_hi.addr then
      .error .hiLoScheme
    else
      let val := s1.last_hi.val
      let addr := s1.last_hi.addr
      let off32 := (val - addr).setWidth 32
      .ok { s1 with data := write32le s1.data ptr (patchLoS (read32le s1.data ptr) off32) }
  | R_RISCV_RVC_BRANCH =>
    let off64 := val - addr
    if (off64 + 0x100#64) &&& ~~~0x1fe#64 ≠ 0#64 then
      .error (.overflow "R_RISCV_RVC_BRANCH" val addr)
    else
      let off32 := off64.setWidth 32
      .ok { s1 with data := write16le s1.data ptr (patchRvcBranch (read16le s1.data ptr) off32) }
  | R_RISCV_RVC_JUMP =>
    let off64 := val - addr
    if (off64 + 0x800#64) &&& ~~~0xffe#64 ≠ 0#64 then
      .error (.overflow "R_RISCV_RVC_BRANCH" val addr)
    else
      let off32 := off64.setWidth 32
      .ok { s1 with data := write16le s1.data ptr (patchRvcJump (read16le s1.data ptr) off32) }
  | R_RISCV_32 =>
    let s1 := if s1.output_dyn then
        { s1 with qrel := s1.qrel ++ [⟨rel.r_offset, 0, .R_RISCV_RELATIVE,
          (read32le s1.data ptr).signExtend 64 + val⟩] }
      else s1
    .ok { s1 with data := add32le s1.data ptr (val.setWidth 32) }
  | R_RISCV_64 =>
    if s1.output_dyn then
      let esym_index := s1.dyn_index rel.sym
      if esym_index ≠ 0 then
        .ok { s1 with qrel := s1.qrel ++ [⟨rel.r_offset, esym_index, .R_RISCV_64, rel.r_addend⟩] }
      else
        .ok { s1 with
          qrel := s1.qrel ++ [⟨rel.r_offset, 0, .R_RISCV_RELATIVE, read64le s1.data ptr + val⟩]
          data := add64le s1.data ptr val }
    else
      .ok { s1 with data := add64le s1.data ptr val }
  | R_RISCV_JUMP_SLOT => .ok { s1 with data := add64le s1.data ptr val }
  | R_RISCV_ADD64 => .ok { s1 with data := write64le s1.data ptr (read64le s1.data ptr + val) }
  | R_RISCV_ADD32 =>
    .ok { s1 with data := write32le s1.data ptr (read32le s1.data ptr + val.setWidth 32) }
  | R_RISCV_SUB64 => .ok { s1 with data := write64le s1.data ptr (read64le s1.data ptr - val) }
  | R_RISCV_SUB32 =>
    .ok { s1 with data := write32le s1.data ptr (read32le s1.data ptr - val.setWidth 32) }
  | R_RISCV_ADD16 =>
    .ok { s1 with data := write16le s1.data ptr (read16le s1.data ptr + val.setWidth 16) }
  | R_RISCV_SUB16 =>
    .ok { s1 with data := write16le s1.data ptr (read16le s1.data ptr - val.setWidth 16) }
  | R_RISCV_SET6 =>
    let b := (s1.data ptr &&& ~~~0x3f#8) ||| (val.setWidth 8 &&& 0x3f#8)
    .ok { s1 with data := Function.update s1.data ptr b }
  | R_RISCV_SUB6 =>
    let b := (s1.data ptr &&& ~~~0x3f#8) ||| ((s1.data ptr - val.setWidth 8) &&& 0x3f#8)
    .ok { s1 with data := Function.update s1.data ptr b }
  | R_RISCV_32_PCREL | R_RISCV_COPY => .ok s1
  | other _ => .ok s1

end tcc.link
