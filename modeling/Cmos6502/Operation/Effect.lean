import Cmos6502.Operation.Arithmetic
import Cmos6502.Operation.Basic

namespace Cmos6502

namespace Registers

variable (r : Registers)

def loadA (v : Byte) : Registers := { r with a := v, p := r.p.withResult v }

def loadX (v : Byte) : Registers := { r with x := v, p := r.p.withResult v }

def loadY (v : Byte) : Registers := { r with y := v, p := r.p.withResult v }

def accumulate (s : Sum) : Registers :=
  { r with p := { r.p with carry := s.carry, overflow := s.overflow } }.loadA s.value

def compare (register v : Byte) : Registers :=
  { r with p := { r.p with carry := v ≤ register }.withResult (register - v) }

def testBits (v : Byte) : Flags := { r.p with zero := r.a &&& v == 0 }

end Registers

def ReadOp.apply (op : ReadOp) (r : Registers) (v : Byte) : Registers :=
  match op with
  | lda | pla => r.loadA v
  | ldx | plx => r.loadX v
  | ldy | ply => r.loadY v
  | plp => { r with p := .ofByte v }
  | and => r.loadA (r.a &&& v)
  | ora => r.loadA (r.a ||| v)
  | eor => r.loadA (r.a ^^^ v)
  | adc => r.accumulate (if r.p.decimal then .addDecimal r.a v r.p.carry else .add r.a v r.p.carry)
  | sbc => r.accumulate (if r.p.decimal then .subDecimal r.a v r.p.carry else .sub r.a v r.p.carry)
  | cmp => r.compare r.a v
  | cpx => r.compare r.x v
  | cpy => r.compare r.y v
  | bit => { r with p := { r.testBits v with negative := v.getLsbD 7, overflow := v.getLsbD 6 } }
  | bitImmediate => { r with p := r.testBits v }

def WriteOp.value (op : WriteOp) (r : Registers) : Byte :=
  match op with
  | sta | pha => r.a
  | stx | phx => r.x
  | sty | phy => r.y
  | stz => 0
  | php => r.p.toByte

def ModifyOp.apply (op : ModifyOp) (r : Registers) (v : Byte) : Byte × Flags :=
  match op with
  | asl => shifted (v <<< 1) (v.getLsbD 7)
  | lsr => shifted (v >>> 1) (v.getLsbD 0)
  | rol => shifted (v <<< 1 ||| (BitVec.ofBool r.p.carry).setWidth 8) (v.getLsbD 7)
  | ror => shifted (v >>> 1 ||| (BitVec.ofBool r.p.carry).setWidth 8 <<< 7) (v.getLsbD 0)
  | inc => (v + 1, r.p.withResult (v + 1))
  | dec => (v - 1, r.p.withResult (v - 1))
  | tsb => (v ||| r.a, r.testBits v)
  | trb => (v &&& ~~~r.a, r.testBits v)
  | rmb bit => (v &&& ~~~BitVec.twoPow 8 bit.toNat, r.p)
  | smb bit => (v ||| BitVec.twoPow 8 bit.toNat, r.p)
where
  shifted (w : Byte) (out : Bool) : Byte × Flags := (w, { r.p with carry := out }.withResult w)

def ImpliedOp.apply (op : ImpliedOp) (r : Registers) : Registers :=
  match op with
  | tax => r.loadX r.a
  | tay => r.loadY r.a
  | txa => r.loadA r.x
  | tya => r.loadA r.y
  | tsx => r.loadX r.sp
  | txs => { r with sp := r.x }
  | inx => r.loadX (r.x + 1)
  | iny => r.loadY (r.y + 1)
  | dex => r.loadX (r.x - 1)
  | dey => r.loadY (r.y - 1)
  | clc => { r with p.carry := false }
  | sec => { r with p.carry := true }
  | cli => { r with p.interruptDisable := false }
  | sei => { r with p.interruptDisable := true }
  | cld => { r with p.decimal := false }
  | sed => { r with p.decimal := true }
  | clv => { r with p.overflow := false }
  | nop | wai | stp => r

/-- A bit branch tests `v`, the byte it has latched. -/
def BranchOp.taken (op : BranchOp) (p : Flags) (v : Byte) : Bool :=
  match op with
  | bpl => !p.negative
  | bmi => p.negative
  | bvc => !p.overflow
  | bvs => p.overflow
  | bcc => !p.carry
  | bcs => p.carry
  | bne => !p.zero
  | beq => p.zero
  | bra => true
  | bbr bit => !v.getLsbD bit.toNat
  | bbs bit => v.getLsbD bit.toNat

namespace Operation

def consume (op : Operation) (r : Registers) (v : Byte) : Registers :=
  match op with
  | read op => op.apply r v
  | _ => r

def produce (op : Operation) (r : Registers) : Byte :=
  match op with
  | write op => op.value r
  | _ => 0

def transform (op : Operation) (r : Registers) (v : Byte) : Byte × Flags :=
  match op with
  | modify op => op.apply r v
  | _ => (v, r.p)

def perform (op : Operation) (r : Registers) : Registers :=
  match op with
  | implied op => op.apply r
  | _ => r

def branches (op : Operation) (p : Flags) (v : Byte) : Bool :=
  match op with
  | branch op => op.taken p v
  | _ => false

end Operation

end Cmos6502
