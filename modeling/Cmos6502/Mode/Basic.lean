import Cmos6502.MicroOp.Basic
import Cmos6502.Operation.Basic

namespace Cmos6502

inductive Form where
  | zeroPage
  | zeroPageIndexed (i : Index)
  | absolute
  | absoluteIndexed (i : Index)
  | zeroPageIndirect
  | indexedIndirect
  | indirectIndexed
deriving DecidableEq

inductive Use where
  | read
  | write
  | modify
deriving DecidableEq

/-- The timing of an instruction, or of the entry into an interrupt or reset.
`halt` serves the two instructions that suspend the processor. -/
inductive Mode where
  | implied
  | accumulator
  | immediate
  | memory (form : Form) (use : Use)
  | relative
  | zeroPageRelative
  | jumpAbsolute
  | jumpIndirect
  | jumpIndexedIndirect
  | push
  | pull
  | jsr
  | rts
  | rti
  | brk
  | halt
  | irq
  | nmi
  | reset
deriving DecidableEq

namespace Mode

def ofForm (form : Form) (uses : List Use) : List Mode := uses.map (memory form)

def catalogue : List Mode :=
  [implied, accumulator, immediate]
    ++ ofForm .zeroPage [.read, .modify, .write]
    ++ ofForm (.zeroPageIndexed .x) [.read, .modify, .write]
    ++ ofForm (.zeroPageIndexed .y) [.read, .write]
    ++ ofForm .absolute [.read, .modify, .write]
    ++ ofForm (.absoluteIndexed .x) [.read, .modify, .write]
    ++ ofForm (.absoluteIndexed .y) [.read, .write]
    ++ ofForm .zeroPageIndirect [.read, .write]
    ++ ofForm .indexedIndirect [.read, .write]
    ++ ofForm .indirectIndexed [.read, .write]
    ++ [relative, zeroPageRelative, jumpAbsolute, jumpIndirect, jumpIndexedIndirect, push, pull,
      jsr, rts, rti, brk, halt, irq, nmi, reset]

/-- The kind of operation a mode serves; interrupt and reset entry serve none. -/
def kind? : Mode → Option Operation.Kind
  | implied | halt => some .implied
  | accumulator => some .modify
  | immediate | pull => some .read
  | push => some .write
  | memory _ .read => some .read
  | memory _ .write => some .write
  | memory _ .modify => some .modify
  | relative | zeroPageRelative => some .branch
  | jumpAbsolute | jumpIndirect | jumpIndexedIndirect | jsr | rts | rti | brk => some .control
  | irq | nmi | reset => none

def readsThenWrites : Mode → Bool
  | memory _ .modify => true
  | _ => false

end Mode

end Cmos6502
