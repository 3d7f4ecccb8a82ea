import Cmos6502.Opcode

namespace Cmos6502

structure Instruction where
  opcode : Byte
  operation : Operation
  mode : Mode
deriving DecidableEq

namespace Instruction

def nop : Instruction := ⟨0xEA, .nop, .implied⟩

def decode (policy : Policy) (opcode : Byte) : Instruction :=
  match Opcode.bound opcode with
  | some (operation, mode) => ⟨opcode, operation, mode⟩
  | none => ⟨opcode, .nop, Opcode.gapMode policy opcode⟩

def documented (i : Instruction) : Bool := (Opcode.bound i.opcode).isSome

def alwaysFixed (i : Instruction) : Bool := Opcode.alwaysFixed.contains i.opcode

def all (policy : Policy) : List Instruction :=
  (List.range 256).map fun n => decode policy (.ofNat 8 n)

theorem opcode_decode (policy : Policy) (opcode : Byte) :
    (decode policy opcode).opcode = opcode := by
  unfold decode
  split <;> rfl

theorem accepts_decode (policy : Policy) (opcode : Byte) :
    (decode policy opcode).mode.kind?.any (decode policy opcode).operation.accepts = true := by
  revert opcode
  cases policy <;> decide

end Instruction

end Cmos6502
