import Tcc.Machine.Bits
import Tcc.Machine.Rv64.Decode
import Tcc.Link.Relocate.Target
import Tcc.Link.Relocate.HiLo
import Tcc.Gen.Riscv64.Emit
import Tcc.Gen.Opic
import Tcc.Gen.Riscv64.Opil
import Tcc.Machine.Words
import Tcc.Gen.Riscv64.Fold
import Tcc.Gen.Riscv64.Load
import Tcc.Gen.Riscv64.Stack
import Tcc.Gen.Riscv64.Cast
import Tcc.Gen.Riscv64.Canonical
import Tcc.Gen.Riscv64.SignExtension
import Tcc.Gen.Riscv64.CastExtension
import Tcc.Gen.Riscv64.Branch
import Tcc.Gen.Riscv64.Reach
import Tcc.Parse.Expr
import Tcc.Parse.Infix
import Tcc.Bcheck.Regions
import Tcc.Bcheck.RegionMap
import Tcc.Bcheck.Check
import Tcc.Bcheck.Heap
import Tcc.Bcheck.Strings
import Tcc.Machine.Rv64.Instruction
import Tcc.Asm.Riscv64
import Tcc.Asm.Encoding
import Tcc.Asm.Decoding
import Tcc.Link.Symbols
import Tcc.Link.Resolution
import Tcc.Machine.Rv64.Memory
import Tcc.Machine.Rv64.Program
import Tcc.Gen.Riscv64.FrameCode
import Tcc.Gen.Riscv64.FrameRun
import Tcc.Gen.Riscv64.FrameLayout
import Tcc.Gen.Riscv64.FrameDiscipline
import Tcc.Gen.Riscv64.FrameLimits
import Tcc.Machine.Backpatch
import Tcc.Gen.Cond.Value
import Tcc.Gen.Cond.Expr
import Tcc.Gen.Cond.Shape
import Tcc.Gen.Cond.Test
import Tcc.Machine.Dwarf
import Tcc.Debug.Backtrace
import Tcc.Debug.Line
import Tcc.Debug.LineTable
import Tcc.Machine.Align
import Tcc.Asm.Directive
import Tcc.Asm.Emission
import Tcc.Machine.Numeral
import Tcc.Archive.Ar
import Tcc.Archive.Members
import Tcc.Archive.RoundTrip
import Tcc.Machine.Buffer
import Tcc.Link.Named
import Tcc.Link.Table
import Tcc.Link.Units
import Tcc.Link.Merge
import Tcc.Link.Object
import Tcc.Link.Loading
import Tcc.Link.Passes
import Tcc.Link.Isolation
import Tcc.Link.Isolated
import Tcc.Machine.Placement
import Tcc.Output.Layout
import Tcc.Output.Placed
import Tcc.Output.Segments
import Tcc.Output.Order
import Tcc.Output.File
import Tcc.Output.Loadable
import Tcc.Output.Loads
import Tcc.Output.Mapped
import Tcc.Gen.Riscv64.Constant
import Tcc.Machine.Rv64.Float
import Tcc.Gen.Riscv64.Access
import Tcc.Gen.Riscv64.Clobber
import Tcc.Gen.Riscv64.ConstantAddress
import Tcc.Machine.Chains
import Tcc.Gen.Riscv64.Jumps
import Tcc.Gen.Riscv64.JumpTargets
import Tcc.Machine.Rv32.Decode
import Tcc.Asm.Riscv32.Encoders
import Tcc.Link.Riscv32.Relocate
import Tcc.Link.Riscv32.Target
import Tcc.Link.Riscv32.HiLo
import Tcc.Machine.Rv32.Exec
import Tcc.Gen.Riscv32.Opi
import Tcc.Gen.Riscv32.Arithmetic
import Tcc.Gen.Riscv32.Operators
import Tcc.Gen.Riscv32.OperatorValues
import Tcc.Gen.Riscv64.CompareForms
import Tcc.Gen.Riscv64.ImmediateForms
import Tcc.Gen.Riscv64.Arguments
import Tcc.Gen.Riscv64.CallStack
import Tcc.Gen.Riscv64.AreaSizing
import Tcc.Gen.Riscv64.AreaLayout
import Tcc.Gen.Riscv64.AreaFits
import Tcc.Gen.Simplify
import Tcc.Gen.Riscv32.Linked
import Tcc.Gen.Riscv32.Access
import Tcc.Gen.Riscv32.Formed
import Tcc.Gen.Riscv32.AddressBase
import Tcc.Gen.Riscv32.Pairs
import Tcc.Gen.Riscv32.TypedAccess
import Tcc.Gen.Riscv32.Words
import Tcc.Gen.Riscv32.Opl
import Tcc.Gen.Riscv32.OplSteps
import Tcc.Gen.Riscv32.OplWords
import Tcc.Gen.Riscv32.OplRuns
import Tcc.Gen.Riscv32.OplValues
import Tcc.Pp.Cstr
import Tcc.Pp.Vprintf
import Tcc.Pp.Macro
import Tcc.Pp.MacroFrames
import Tcc.Machine.WordBytes
import Tcc.Pp.TokenString
import Tcc.Pp.TokenGet
import Tcc.Pp.Input
import Tcc.Pp.Escape
import Tcc.Pp.Utf8
import Tcc.Pp.WideString
import Tcc.Pp.Paste
import Tcc.Pp.Stringize
import Tcc.Machine.Interner
import Tcc.Pp.Intern
import Tcc.Pp.Identifier
import Tcc.Pp.Interning
import Tcc.Machine.Heap
import Tcc.Pp.TinyAlloc
import Tcc.Pp.TinyBlocks
import Tcc.Pp.TinySteps
import Tcc.Pp.TinyRealloc
import Tcc.Pp.TinyMoves
import Tcc.Pp.TinyRun
import Tcc.Pp.Number
import Tcc.Pp.IntegerConstant
import Tcc.Pp.NumberScan
import Tcc.Pp.NumberRuns
import Tcc.Pp.IntegerLiterals
import Tcc.Link.ElfHash
import Tcc.Link.HashIndex
import Tcc.Link.HashRuns
import Tcc.Machine.Groups
import Tcc.Link.GnuHash
import Tcc.Link.GnuLookup
import Tcc.Asm.SectionStack
import Tcc.Asm.Data
import Tcc.Link.Supplied
import Tcc.Archive.Alacarte
import Tcc.Asm.LocalLabels
import Tcc.Asm.Expr
import Tcc.Asm.ExprValue
import Tcc.Machine.Reader
import Tcc.Asm.Repeat
import Tcc.Asm.RepeatFrame
import Tcc.Asm.RepeatCopies
import Tcc.Asm.RepeatNesting
import Tcc.Machine.Ieee
import Tcc.Machine.Jam
import Tcc.Machine.DoubleWord
import Tcc.Lib.QuadParts
import Tcc.Lib.QuadShift
import Tcc.Lib.QuadRound
import Tcc.Lib.QuadAdd
import Tcc.Lib.QuadMul
import Tcc.Lib.QuadDiv
import Tcc.Lib.QuadWiden
import Tcc.Lib.QuadNarrow
import Tcc.Lib.QuadInteger
import Tcc.Lib.QuadCompare
import Tcc.Lib.ArmDivision
import Tcc.Lib.ArmConvert
import Tcc.Lib.ArmNearest
import Tcc.Wasm.Format
import Tcc.Driver.LinkerOptions
import Tcc.Driver.LinkerWords
import Tcc.Driver.LinkerCompose
import Tcc.Machine.A64
import Tcc.Gen.Arm64.Bimm
import Tcc.Gen.Arm64.Movimm
import Tcc.Parse.CompareTypes
import Tcc.Gen.Cond.Switch
import Tcc.Pp.Conditional
import Tcc.Parse.Scope
import Tcc.Parse.ScopeRuns
import Tcc.Gen.Block
import Tcc.Gen.BlockRuns
import Tcc.Machine.BitMemory
import Tcc.Parse.StructLayout
import Tcc.Parse.StructFields
import Tcc.Gen.BitField
