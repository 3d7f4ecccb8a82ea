import Cmos6502.Word

namespace Cmos6502

inductive Index where
  | x
  | y
deriving DecidableEq

/-- One cycle's worth of work: a bus transfer and what becomes of its byte. A
dummy discards the byte. -/
inductive MicroOp where
  | fetchOpcode
  | dummyProgram
  | executeImplied
  | executeAccumulator
  | readImmediate
  | operandLow
  | operandHigh
  | operandHighIndexed (i : Index)
  | indexZeroPage (i : Index)
  | indexAbsolute (i : Index)
  | pageFixup
  | readEffective
  | writeEffective
  | latchEffective
  | modifyLatched
  | writeLatched
  | dummyEffective
  | pointerLow
  | pointerHigh
  | pointerHighIndexed (i : Index)
  | pointerLowAbsolute
  | jumpThrough
  | dummyIndirect
  | jump
  | branchOffset
  | branchTaken
  | branchFixup
  | dummyStack (depth : Byte)
  | pushHigh
  | pushLow
  | pushStatus (brk : Bool)
  | pushValue
  | pullValue
  | pullStatus
  | pullLow
  | pullHigh
  | pullJump
  | afterReturn
  | breakSignature
  | vectorLow (vector : Word)
  | vectorHigh (vector : Word)
deriving DecidableEq

namespace MicroOp

def pullsVector : MicroOp → Bool
  | vectorLow _ | vectorHigh _ => true
  | _ => false

end MicroOp

end Cmos6502
