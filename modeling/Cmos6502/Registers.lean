import Cmos6502.Flags

namespace Cmos6502

structure Registers where
  a : Byte
  x : Byte
  y : Byte
  sp : Byte
  pc : Word
  p : Flags
deriving DecidableEq

namespace Registers

/-- The start value of the program counter does not matter: the reset vector
replaces it. -/
def powerOn : Registers where
  a := 0
  x := 0
  y := 0
  sp := 0xFD
  pc := 0
  p := .powerOn

def inStack (sp : Byte) : Word := 0x0100 ||| sp.toWord

/-- The stack grows downwards and the stack pointer names the next free byte. -/
def stackTop (r : Registers) : Word := inStack r.sp

def stackNext (r : Registers) : Word := inStack (r.sp + 1)

def stackBelow (r : Registers) (depth : Byte) : Word := inStack (r.sp - depth)

theorem low_inStack (s : Byte) : (inStack s).low = s := by
  revert s
  decide

theorem high_inStack (s : Byte) : (inStack s).high = 1 := by
  revert s
  decide

theorem inStack_inj {s t : Byte} (h : inStack s = inStack t) : s = t := by
  rw [← low_inStack s, h, low_inStack]

end Registers

end Cmos6502
