import Cmos6502.Computer
import Cmos6502.Cpu.Reading
import Cmos6502.Disassembly
import Cmos6502.Memory.Lemmas
import Cmos6502.Proofs.Invariant
import Cmos6502.Proofs.Edge
import Cmos6502.Proofs.NmiLatch
import Cmos6502.Proofs.Requests
import Cmos6502.Proofs.Isolation
import Cmos6502.Proofs.Microcode
import Cmos6502.Proofs.Semantics
import Cmos6502.Proofs.ResetCounter
import Cmos6502.Proofs.ResetPulse
import Cmos6502.Proofs.SharedBus
import Cmos6502.Proofs.WaitStates
import Cmos6502.Proofs.Steady
import Cmos6502.Proofs.Beats
import Cmos6502.Proofs.Operands
import Cmos6502.Proofs.ResetEntry
import Cmos6502.Proofs.InterruptReturn
import Cmos6502.Proofs.CycleCount
import Cmos6502.Proofs.StatusLines
import Cmos6502.Proofs.HeldStatus
import Cmos6502.Proofs.OperandAccess
import Cmos6502.Proofs.Consumption
import Cmos6502.Proofs.ControlFlow
import Cmos6502.Proofs.DecodeLatch
import Cmos6502.Proofs.MemoryMap
import Cmos6502.Proofs.PeripheralOrder
import Cmos6502.Proofs.LinearSweep
import Cmos6502.Proofs.Subroutines
import Cmos6502.Proofs.Suspension
import Cmos6502.Proofs.WaitInstruction
import Cmos6502.Proofs.StopInstruction
import Cmos6502.Proofs.NmiAfterReset
import Cmos6502.Proofs.ResetReports
import Cmos6502.Proofs.ByteChains
import Cmos6502.Proofs.DecimalArithmetic
import Cmos6502.Proofs.BinaryArithmetic
import Cmos6502.Proofs.Rotation
import Cmos6502.Proofs.DisassemblyText
import Cmos6502.Proofs.StackOrder
import Cmos6502.Proofs.HalfEdges
