import Riscy.RISCVInst
import Riscy.RISCVDecoder
import Riscy.BitFields
import Riscy.RISCVEncoding
import Riscy.RISCVDecodeExact
import Riscy.RISCVCFG
import Riscy.RISCVCFGSound
import Riscy.ByteMemory
import Riscy.Runs
import Riscy.TextScan
import Riscy.IRBlock
import Riscy.IRSemantics
import Riscy.IRTyping
import Riscy.RISCVMachine
import Riscy.RISCVLifter
import Riscy.RISCVLowering
import Riscy.RISCVLoweringSound
import Riscy.RISCVOperandFields
import Riscy.RISCVBlockRun
import Riscy.RISCVSimulation
import Riscy.RISCVDropped
import Riscy.RISCVIndirect
import Riscy.RISCVAccess
import Riscy.RISCVLiftedTyped
import Riscy.AArch64Instr
import Riscy.AArch64ISel
import Riscy.AArch64Asm
import Riscy.AArch64Selected
import Riscy.AArch64Lines
import Riscy.AArch64SelectSound
import Riscy.AArch64Constants
import Riscy.AArch64Simulation
import Riscy.AArch64SelectCorrect
import Riscy.AArch64NarrowExt
import Riscy.AArch64Numbering
import Riscy.AArch64Liveness
import Riscy.AArch64LiveRanges
import Riscy.AArch64RegAlloc
import Riscy.Renaming
import Riscy.AArch64Rename
import Riscy.AArch64Segments
import Riscy.AArch64Lifted
import Riscy.AArch64Emitter
import Riscy.Translate
import Riscy.RISCVReach
import Riscy.RISCVWorklist
import Riscy.AArch64Printed
import Riscy.AArch64PcRelative
import Riscy.AArch64LineNames
import Riscy.AArch64AllocSound
import Riscy.AArch64WideBlocks
import Riscy.AArch64AllocOrder
import Riscy.AArch64FirstLowering
import Riscy.AArch64Preserved
import Riscy.AArch64Ties
import Riscy.AArch64Reproducible
import Riscy.AArch64GuestAccess
import Riscy.MemoryReaders
import Riscy.AArch64Dispatch
import Riscy.AArch64Reserved
import Riscy.AArch64Runtime
import Riscy.AArch64Convention
import Riscy.AArch64Control
import Riscy.AArch64GuestCalls
import Riscy.AArch64LiftedTyped
import Riscy.AArch64StateBytes
import Riscy.AArch64BlockCorrect
import Riscy.AArch64EndToEnd
import Riscy.AArch64Ends
import Riscy.AArch64Isolation
import Riscy.RISCVListing
import Riscy.IRListing
import Riscy.AArch64Text
import Riscy.AArch64TextRead
import Riscy.RuntimeMain
import Riscy.LowerRun
import Riscy.LowerCalls
import Riscy.WholeRun
import Riscy.ELFLoad
import Riscy.RiscyMain
import Riscy.Toolchain
