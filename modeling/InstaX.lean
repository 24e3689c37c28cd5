import InstaX.ElfLoad.Elfio
import InstaX.ElfLoad.LoadElfFile
import InstaX.Flags.Condition
import InstaX.Flags.Consulted
import InstaX.Flags.FlagState
import InstaX.Flags.KeptCarry
import InstaX.Flags.Materialise
import InstaX.Flags.NamedFlags
import InstaX.Flags.TypedRecord
import InstaX.Flags.WellFormed
import InstaX.Foundation.AddressSpace
import InstaX.Foundation.Agreement
import InstaX.Foundation.ByteStore
import InstaX.Foundation.CutPoints
import InstaX.Foundation.DoubleWidth
import InstaX.Foundation.FixedWidth
import InstaX.Foundation.History
import InstaX.Foundation.LeaderCut
import InstaX.Foundation.Numerals
import InstaX.Foundation.PageHull
import InstaX.Foundation.Pieces
import InstaX.Foundation.Records
import InstaX.Foundation.RegisterCode
import InstaX.Foundation.Rounding
import InstaX.Foundation.RunningMin
import InstaX.Foundation.StraightLine
import InstaX.Foundation.Throwing
import InstaX.Foundation.Tracing
import InstaX.Foundation.TypedCode
import InstaX.IR.Agreement
import InstaX.IR.Execution
import InstaX.IR.Function
import InstaX.IR.Machine
import InstaX.IR.Names
import InstaX.IR.Printer
import InstaX.IR.Syntax
import InstaX.IR.Typing
import InstaX.Lifter.Arithmetic
import InstaX.Lifter.BlockLookup
import InstaX.Lifter.BlockRuns
import InstaX.Lifter.BranchTargets
import InstaX.Lifter.Coverage
import InstaX.Lifter.DefinedBeforeUse
import InstaX.Lifter.EagerFlags
import InstaX.Lifter.EffectiveAddress
import InstaX.Lifter.Emitted
import InstaX.Lifter.Fragment
import InstaX.Lifter.FragmentRuns
import InstaX.Lifter.FunctionRuns
import InstaX.Lifter.Instr
import InstaX.Lifter.InstructionCode
import InstaX.Lifter.InstructionNames
import InstaX.Lifter.InstructionRuns
import InstaX.Lifter.LazyFlags
import InstaX.Lifter.MemoryWidth
import InstaX.Lifter.Moves
import InstaX.Lifter.OperandCode
import InstaX.Lifter.OperandNames
import InstaX.Lifter.OperandTypes
import InstaX.Lifter.OperandValues
import InstaX.Lifter.PrintedRegisters
import InstaX.Lifter.ReadSymbols
import InstaX.Lifter.RegisterWrites
import InstaX.Lifter.Registers
import InstaX.Lifter.Shifts
import InstaX.Lifter.State
import InstaX.Lifter.Terminated
import InstaX.Lifter.Terminators
import InstaX.Lifter.TypedInstructions
import InstaX.Lifter.WellTyped
import InstaX.Lifter.WideArithmetic
import InstaX.Runtime.ElfFormat
import InstaX.Runtime.ElfMapper
import InstaX.Runtime.ElfReader
import InstaX.Runtime.ElfRecord
import InstaX.Runtime.ElfTypes
import InstaX.Runtime.FinalPermissions
import InstaX.Runtime.GuestAccess
import InstaX.Runtime.GuestBytes
import InstaX.Runtime.GuestMemory
import InstaX.Runtime.GuestSpace
import InstaX.Runtime.GuestStack
import InstaX.Runtime.Host
import InstaX.Runtime.HostFaults
import InstaX.Runtime.HostPages
import InstaX.Runtime.ImageContents
import InstaX.Runtime.LoadSpan
import InstaX.Runtime.LoadedImage
import InstaX.Runtime.LoadedProcess
import InstaX.Runtime.Loader
import InstaX.Runtime.LoaderWrites
import InstaX.Runtime.MemoryCalls
import InstaX.Runtime.NeededLibraries
import InstaX.Runtime.Permissions
import InstaX.Runtime.PhdrAddress
import InstaX.Runtime.ProtectedRegions
import InstaX.Runtime.RegionPermissions
import InstaX.Runtime.Relocation
import InstaX.Runtime.RelocationEnds
import InstaX.Runtime.RelocationExact
import InstaX.Runtime.RelocationRun
import InstaX.Runtime.Reservation
import InstaX.Runtime.ReservedRange
import InstaX.Runtime.StackLayout
import InstaX.Runtime.StackOverflow
import InstaX.Runtime.StackRecord
import InstaX.Runtime.StackWalk
import InstaX.X86.ControlFlow
import InstaX.X86.DoubleWord
import InstaX.X86.Execution
import InstaX.X86.Instruction
import InstaX.X86.Register
import InstaX.X86.Semantics
