import Cmos6502.MicroOp.Transfer

namespace Cmos6502

def Index.value (i : Index) (r : Registers) : Byte :=
  match i with
  | x => r.x
  | y => r.y

namespace State

variable (s : State)

def withPc (pc : Word) : State := { s with regs.pc := pc }

def bumpPc : State := s.withPc (s.regs.pc + 1)

def withAddress (a : Word) : State := { s with latches.address := a }

def withData (v : Byte) : State := { s with latches.data := v }

def dropStack : State := { s with regs.sp := s.regs.sp - 1 }

def raiseStack : State := { s with regs.sp := s.regs.sp + 1 }

def operation : Operation := s.instruction.operation

/-- Form an indexed address, and owe a fixup when it left the base's page or the
instruction always pays one. -/
def indexed (base : Word) (i : Index) : State :=
  let a := base + (i.value s.regs).toWord
  { s with
    latches.address := a
    latches.carry := !base.samePage a || s.instruction.alwaysFixed }

def consume (v : Byte) : State := { s with regs := s.operation.consume s.regs v }

def modifyA : State :=
  let (v, p) := s.operation.transform s.regs s.regs.a
  { s with regs.a := v, regs.p := p }

def modifyData : State :=
  let (v, p) := s.operation.transform s.regs s.latches.data
  { s with latches.data := v, regs.p := p }

def perform : State :=
  { s with
    regs := s.operation.perform s.regs
    paused := s.paused || s.operation == .implied .wai
    stopped := s.stopped || s.operation == .implied .stp }

def decideBranch : Bool := s.operation.branches s.regs.p s.latches.data

/-- A target in another page waits in the address latch for the fixup. -/
def takeBranch : State :=
  let target := s.regs.pc + s.latches.data.displacement
  if s.regs.pc.samePage target then { s.withPc target with latches.carry := false }
  else { s.withAddress target with latches.carry := true }

def maskInterrupts : State :=
  { s with regs.p.interruptDisable := true, regs.p.decimal := false }

end State

namespace MicroOp

def complete (op : MicroOp) (s : State) (v : Byte) : State :=
  match op with
  | fetchOpcode => s.bumpPc.withData v
  | dummyProgram | dummyEffective | dummyIndirect | dummyStack _ => s
  | executeImplied => s.perform
  | executeAccumulator => s.modifyA
  | readImmediate => (s.bumpPc.withData v).consume v
  | operandLow => s.bumpPc.withAddress v.toWord
  | operandHigh => s.bumpPc.withAddress (s.latches.address.orHigh v)
  | operandHighIndexed i => s.bumpPc.indexed (s.latches.address.orHigh v) i
  | indexZeroPage i =>
    s.withAddress (Byte.toWord (s.latches.address.low + i.value s.regs))
  | indexAbsolute i => s.withAddress (s.latches.address + (i.value s.regs).toWord)
  | pageFixup => { s with latches.carry := false }
  | readEffective => (s.withData v).consume v
  | writeEffective | writeLatched => s
  | latchEffective | pointerLow | pointerLowAbsolute | vectorLow _ => s.withData v
  | modifyLatched => s.modifyData
  | pointerHigh => s.withAddress (.ofBytes s.latches.data v)
  | pointerHighIndexed i => s.indexed (.ofBytes s.latches.data v) i
  | jumpThrough => s.withPc (.ofBytes s.latches.data v)
  | jump => s.withPc (s.latches.address.orHigh v)
  | branchOffset => { s.bumpPc.withData v with latches.taken := s.decideBranch }
  | branchTaken => s.takeBranch
  | branchFixup => { s.withPc s.latches.address with latches.carry := false }
  | pushHigh | pushLow | pushStatus _ | pushValue => s.dropStack
  | pullValue => (s.raiseStack.withData v).consume v
  | pullStatus => { s.raiseStack with regs.p := .ofByte v }
  | pullLow => s.raiseStack.withAddress v.toWord
  | pullHigh => s.raiseStack.withAddress (s.latches.address.orHigh v)
  | pullJump => s.raiseStack.withPc (s.latches.address.orHigh v)
  | afterReturn => s.withPc (s.latches.address + 1)
  | breakSignature => s.bumpPc
  | vectorHigh _ => (s.withPc (.ofBytes s.latches.data v)).maskInterrupts

end MicroOp

end Cmos6502
