import Cmos6502.Hex
import Cmos6502.Instruction
import Cmos6502.Mode.Format
import Cmos6502.Operation.Mnemonic

namespace Cmos6502

structure Disassembly where
  text : String
  length : Nat
deriving DecidableEq

namespace Disassembly

variable (policy : Policy) (bytes : List Byte) (pc : Word)

/-- Bytes that are not there read as zero. -/
def byteAt (i : Nat) : Byte := bytes.getD i 0

def target (i : Instruction) : Word :=
  pc + .ofNat 16 i.mode.length
    + (byteAt bytes (if i.mode = .zeroPageRelative then 2 else 1)).displacement

def renderPiece (i : Instruction) : Piece → String
  | .text s => s
  | .byte => (byteAt bytes 1).hex
  | .word => (Word.ofBytes (byteAt bytes 1) (byteAt bytes 2)).hex
  | .target => (target bytes pc i).hex

def operand (i : Instruction) : String :=
  String.join (i.mode.format.map (renderPiece bytes pc i))

def ofBytes : Disassembly :=
  let i := Instruction.decode policy (byteAt bytes 0)
  let mnemonic := i.operation.mnemonic
  ⟨if i.mode.format.isEmpty then mnemonic else mnemonic ++ " " ++ operand bytes pc i,
    i.mode.length⟩

theorem length_pos : 0 < (ofBytes policy bytes pc).length := by
  simp only [ofBytes, Mode.length]
  omega

end Disassembly

structure Listing where
  pc : Word
  entry : Disassembly
deriving DecidableEq

/-- Instructions end to end until the bytes are used up, and always one. -/
def sweep (policy : Policy) (bytes : List Byte) (pc : Word) : List Listing :=
  let d := Disassembly.ofBytes policy bytes pc
  ⟨pc, d⟩ ::
    if _h : d.length < bytes.length then
      sweep policy (bytes.drop d.length) (pc + .ofNat 16 d.length)
    else []
termination_by bytes.length
decreasing_by
  have := Disassembly.length_pos policy bytes pc
  simp only [List.length_drop]
  omega

end Cmos6502
