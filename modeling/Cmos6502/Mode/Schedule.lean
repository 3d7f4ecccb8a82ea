import Cmos6502.Mode.Basic

namespace Cmos6502

def nmiVector : Word := 0xFFFA
def resetVector : Word := 0xFFFC
def irqVector : Word := 0xFFFE

def Form.addressing : Form → List MicroOp
  | zeroPage => [.operandLow]
  | zeroPageIndexed i => [.operandLow, .indexZeroPage i]
  | absolute => [.operandLow, .operandHigh]
  | absoluteIndexed i => [.operandLow, .operandHighIndexed i, .pageFixup]
  | zeroPageIndirect => [.operandLow, .pointerLow, .pointerHigh]
  | indexedIndirect => [.operandLow, .indexZeroPage .x, .pointerLow, .pointerHigh]
  | indirectIndexed => [.operandLow, .pointerLow, .pointerHighIndexed .y, .pageFixup]

def Use.transfer : Use → List MicroOp
  | read => [.readEffective]
  | write => [.writeEffective]
  | modify => [.latchEffective, .modifyLatched, .writeLatched]

namespace Mode

def branching : List MicroOp := [.branchOffset, .branchTaken, .branchFixup]

def vectored (vector : Word) : List MicroOp := [.vectorLow vector, .vectorHigh vector]

def pushing (brk : Bool) : List MicroOp := [.pushHigh, .pushLow, .pushStatus brk]

/-- The cycles after the first, in order. Reset reads the stack where an
interrupt pushes, and leaves the stack pointer alone. -/
def microOps : Mode → List MicroOp
  | implied => [.executeImplied]
  | accumulator => [.executeAccumulator]
  | immediate => [.readImmediate]
  | memory form use => form.addressing ++ use.transfer
  | relative => branching
  | zeroPageRelative => [.operandLow, .latchEffective, .dummyEffective] ++ branching
  | jumpAbsolute => [.operandLow, .jump]
  | jumpIndirect =>
    [.operandLow, .operandHigh, .dummyIndirect, .pointerLowAbsolute, .jumpThrough]
  | jumpIndexedIndirect =>
    [.operandLow, .operandHigh, .indexAbsolute .x, .pointerLowAbsolute, .jumpThrough]
  | push => [.dummyProgram, .pushValue]
  | pull => [.dummyProgram, .dummyStack 0, .pullValue]
  | jsr => [.operandLow, .dummyStack 0, .pushHigh, .pushLow, .jump]
  | rts => [.dummyProgram, .dummyStack 0, .pullLow, .pullHigh, .afterReturn]
  | rti => [.dummyProgram, .dummyStack 0, .pullStatus, .pullLow, .pullJump]
  | brk => [.breakSignature] ++ pushing true ++ vectored irqVector
  | halt => [.dummyProgram, .executeImplied]
  | irq => [.dummyProgram] ++ pushing false ++ vectored irqVector
  | nmi => [.dummyProgram] ++ pushing false ++ vectored nmiVector
  | reset => [.dummyProgram, .dummyStack 0, .dummyStack 1, .dummyStack 2] ++ vectored resetVector

/-- The first cycle included, and no cycle passed over. -/
def cycles (m : Mode) : Nat := m.microOps.length + 1

theorem microOps_ne_nil (m : Mode) : m.microOps ≠ [] := by
  cases m <;> simp [microOps, branching, pushing, vectored]
  case memory form use => cases form <;> simp [Form.addressing]

theorem fetchOpcode_notMem_microOps (m : Mode) : .fetchOpcode ∉ m.microOps := by
  cases m <;> simp [microOps, branching, pushing, vectored]
  case memory form use => cases form <;> cases use <;> simp [Form.addressing, Use.transfer]

end Mode

end Cmos6502
