import Cmos6502.Registers

namespace Cmos6502

inductive ReadOp where
  | lda | ldx | ldy | adc | sbc | and | ora | eor | cmp | cpx | cpy | bit | bitImmediate
  | pla | plp | plx | ply
deriving DecidableEq

inductive WriteOp where
  | sta | stx | sty | stz | pha | php | phx | phy
deriving DecidableEq

inductive ModifyOp where
  | asl | lsr | rol | ror | inc | dec | tsb | trb
  | rmb (bit : BitVec 3)
  | smb (bit : BitVec 3)
deriving DecidableEq

inductive ImpliedOp where
  | tax | tay | txa | tya | tsx | txs | inx | iny | dex | dey
  | clc | sec | cli | sei | cld | sed | clv | nop | wai | stp
deriving DecidableEq

inductive BranchOp where
  | bpl | bmi | bvc | bvs | bcc | bcs | bne | beq | bra
  | bbr (bit : BitVec 3)
  | bbs (bit : BitVec 3)
deriving DecidableEq

inductive ControlOp where
  | jmp | jsr | rts | rti | brk
deriving DecidableEq

/-- What a mnemonic does with its operand: it takes a byte, makes one, changes
one in place, works on registers alone, decides a branch, or leaves all the work
to its addressing mode. -/
inductive Operation where
  | read (op : ReadOp)
  | write (op : WriteOp)
  | modify (op : ModifyOp)
  | implied (op : ImpliedOp)
  | branch (op : BranchOp)
  | control (op : ControlOp)
deriving DecidableEq

namespace Operation

inductive Kind where
  | read | write | modify | implied | branch | control
deriving DecidableEq

def kind : Operation → Kind
  | read _ => .read
  | write _ => .write
  | modify _ => .modify
  | implied _ => .implied
  | branch _ => .branch
  | control _ => .control

def nop : Operation := .implied .nop

/-- `NOP` also stands where a byte is read, and ignores it. -/
def accepts (op : Operation) (k : Kind) : Bool := op.kind == k || (op == nop && k == .read)

end Operation

end Cmos6502
