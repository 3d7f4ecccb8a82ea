import Cmos6502.Mode.Basic

namespace Cmos6502

/-- A part of a written operand: fixed text, the first operand byte, the operand
word, or the target of a branch. -/
inductive Piece where
  | text (s : String)
  | byte
  | word
  | target
deriving DecidableEq

abbrev Format := List Piece

namespace Format

def template (f : Format) : String :=
  String.join (f.map fun
    | .text s => s
    | .byte => "\x7bb\x7d"
    | .word => "\x7bw\x7d"
    | .target => "\x7br\x7d")

end Format

def Index.name : Index → String
  | x => "X"
  | y => "Y"

namespace Form

def name : Form → String
  | zeroPage => "Zero Page"
  | zeroPageIndexed i => "Zero Page," ++ i.name
  | absolute => "Absolute"
  | absoluteIndexed i => "Absolute," ++ i.name
  | zeroPageIndirect => "(Zero Page)"
  | indexedIndirect => "(Zero Page,X)"
  | indirectIndexed => "(Zero Page),Y"

def operandSize : Form → Nat
  | absolute | absoluteIndexed _ => 2
  | _ => 1

def format : Form → Format
  | zeroPage => [.text "$", .byte]
  | zeroPageIndexed i => [.text "$", .byte, .text ("," ++ i.name)]
  | absolute => [.text "$", .word]
  | absoluteIndexed i => [.text "$", .word, .text ("," ++ i.name)]
  | zeroPageIndirect => [.text "($", .byte, .text ")"]
  | indexedIndirect => [.text "($", .byte, .text ",X)"]
  | indirectIndexed => [.text "($", .byte, .text "),Y"]

end Form

namespace Mode

def name : Mode → String
  | implied | halt => "Implied"
  | accumulator => "Accumulator"
  | immediate => "Immediate"
  | memory form _ => form.name
  | relative => "Relative"
  | zeroPageRelative => "Zero Page Relative"
  | jumpAbsolute | jsr => "Absolute"
  | jumpIndirect => "(Absolute)"
  | jumpIndexedIndirect => "(Absolute,X)"
  | push | pull | rts | rti | brk => "Stack"
  | irq => "IRQ"
  | nmi => "NMI"
  | reset => "RESET"

/-- The bytes after the opcode. A break carries one that nothing shows. -/
def operandSize : Mode → Nat
  | implied | accumulator | push | pull | rts | rti | halt | irq | nmi | reset => 0
  | immediate | relative | brk => 1
  | memory form _ => form.operandSize
  | zeroPageRelative | jumpAbsolute | jumpIndirect | jumpIndexedIndirect | jsr => 2

def length (m : Mode) : Nat := 1 + m.operandSize

def format : Mode → Format
  | accumulator => [.text "A"]
  | immediate => [.text "#$", .byte]
  | memory form _ => form.format
  | relative => [.text "$", .target]
  | zeroPageRelative => [.text "$", .byte, .text ",$", .target]
  | jumpAbsolute | jsr => [.text "$", .word]
  | jumpIndirect => [.text "($", .word, .text ")"]
  | jumpIndexedIndirect => [.text "($", .word, .text ",X)"]
  | implied | push | pull | rts | rti | brk | halt | irq | nmi | reset => []

end Mode

end Cmos6502
