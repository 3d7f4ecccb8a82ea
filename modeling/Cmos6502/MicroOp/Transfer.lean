import Cmos6502.Operation.Effect
import Cmos6502.State.Basic

namespace Cmos6502

inductive Transfer where
  | read (address : Word)
  | write (address : Word) (value : Byte)
deriving DecidableEq

def Transfer.address : Transfer → Word
  | read a => a
  | write a _ => a

namespace MicroOp

def address (op : MicroOp) (s : State) : Word :=
  match op with
  | fetchOpcode | dummyProgram | executeImplied | executeAccumulator | readImmediate | operandLow
  | operandHigh | operandHighIndexed _ | jump | branchOffset | branchTaken | branchFixup
  | breakSignature => s.regs.pc
  | indexAbsolute _ | dummyIndirect | pageFixup => s.regs.pc - 1
  | indexZeroPage _ | pointerLow => s.latches.address.low.toWord
  | pointerHigh | pointerHighIndexed _ => Byte.toWord (s.latches.address.low + 1)
  | readEffective | writeEffective | latchEffective | modifyLatched | writeLatched | dummyEffective
  | pointerLowAbsolute | afterReturn => s.latches.address
  | jumpThrough => s.latches.address + 1
  | dummyStack depth => s.regs.stackBelow depth
  | pushHigh | pushLow | pushStatus _ | pushValue => s.regs.stackTop
  | pullValue | pullStatus | pullLow | pullHigh | pullJump => s.regs.stackNext
  | vectorLow vector => vector
  | vectorHigh vector => vector + 1

def written? (op : MicroOp) (s : State) : Option Byte :=
  match op with
  | writeEffective | pushValue => some (s.instruction.operation.produce s.regs)
  | writeLatched => some s.latches.data
  | pushHigh => some s.regs.pc.high
  | pushLow => some s.regs.pc.low
  | pushStatus brk => some (if brk then s.regs.p.toByte else s.regs.p.toInterruptByte)
  | _ => none

def transfer (op : MicroOp) (s : State) : Transfer :=
  match op.written? s with
  | some v => .write (op.address s) v
  | none => .read (op.address s)

/-- A fixup with nothing to fix, and the move of a branch that is not taken, cost
no cycle. -/
def passedOver (op : MicroOp) (s : State) : Bool :=
  match op with
  | pageFixup | branchFixup => !s.latches.carry
  | branchTaken => !s.latches.taken
  | _ => false

end MicroOp

end Cmos6502
