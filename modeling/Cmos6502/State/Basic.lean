import Cmos6502.Instruction
import Cmos6502.Mode.Schedule
import Cmos6502.Registers

namespace Cmos6502

inductive Sequence where
  | instruction
  | irq
  | nmi
  | reset
deriving DecidableEq

/-- What one cycle of a sequence leaves for the next. `carry` is a page fixup
still owed. -/
structure Latches where
  address : Word
  data : Byte
  carry : Bool
  taken : Bool
deriving DecidableEq

def Latches.clear : Latches := ⟨0, 0, false, false⟩

/-- `irq` is the line as last sampled, `nmi` a falling edge not yet served, and
`nmiHeld` the line from which the next edge is told. -/
structure Requests where
  irq : Bool
  nmi : Bool
  nmiHeld : Bool
deriving DecidableEq

def Requests.none : Requests := ⟨false, false, false⟩

/-- All that the processor remembers between two edges. Step zero is the first
cycle of a sequence and step `k + 1` runs its micro-op `k`; `resetHold` counts
the edges that reset has been held for. -/
structure State where
  regs : Registers
  instruction : Instruction
  sequence : Sequence
  step : Nat
  latches : Latches
  requests : Requests
  resetHold : Byte
  paused : Bool
  stopped : Bool
deriving DecidableEq

namespace State

def powerOn : State where
  regs := .powerOn
  instruction := .nop
  sequence := .reset
  step := 0
  latches := .clear
  requests := .none
  resetHold := 0
  paused := false
  stopped := false

def mode (s : State) : Mode :=
  match s.sequence with
  | .instruction => s.instruction.mode
  | .irq => .irq
  | .nmi => .nmi
  | .reset => .reset

def atBoundary (s : State) : Bool := s.step == 0

def restart (s : State) (sequence : Sequence) : State :=
  { s with sequence := sequence, step := 0, latches := .clear }

def startAt (s : State) (regs : Registers) : State :=
  { s.restart .instruction with regs := regs, paused := false, stopped := false }

end State

end Cmos6502
