import Cmos6502.Word

namespace Cmos6502

/-- The six flags that have storage. In the byte form the other two bits, break
and unused, read as one. -/
structure Flags where
  negative : Bool
  overflow : Bool
  decimal : Bool
  interruptDisable : Bool
  zero : Bool
  carry : Bool
deriving DecidableEq

namespace Flags

def powerOn : Flags where
  negative := false
  overflow := false
  decimal := false
  interruptDisable := true
  zero := false
  carry := false

def toByte (p : Flags) : Byte :=
  .ofBoolListBE
    [p.negative, p.overflow, true, true, p.decimal, p.interruptDisable, p.zero, p.carry]

def ofByte (v : Byte) : Flags where
  negative := v.getLsbD 7
  overflow := v.getLsbD 6
  decimal := v.getLsbD 3
  interruptDisable := v.getLsbD 2
  zero := v.getLsbD 1
  carry := v.getLsbD 0

def breakBit : Byte := 0x10

/-- What an interrupt pushes: break reads as zero. -/
def toInterruptByte (p : Flags) : Byte := p.toByte &&& ~~~breakBit

def anyOf (p : Flags) (mask : Byte) : Bool := p.toByte &&& mask != 0

def set (p : Flags) (mask : Byte) (on : Bool) : Flags :=
  ofByte (if on then p.toByte ||| mask else p.toByte &&& ~~~mask)

def withResult (p : Flags) (v : Byte) : Flags := { p with negative := v.msb, zero := v == 0 }

def letter (c : Char) (on : Bool) : Char := if on then c else c.toLower

def text (p : Flags) : String :=
  String.ofList
    [letter 'N' p.negative, letter 'V' p.overflow, '-', 'B', letter 'D' p.decimal,
      letter 'I' p.interruptDisable, letter 'Z' p.zero, letter 'C' p.carry]

@[simp] theorem ofByte_toByte (p : Flags) : ofByte p.toByte = p := by
  obtain ⟨n, v, d, i, z, c⟩ := p
  cases n <;> cases v <;> cases d <;> cases i <;> cases z <;> cases c <;> rfl

@[simp] theorem ofByte_toInterruptByte (p : Flags) : ofByte p.toInterruptByte = p := by
  obtain ⟨n, v, d, i, z, c⟩ := p
  cases n <;> cases v <;> cases d <;> cases i <;> cases z <;> cases c <;> rfl

theorem toByte_ofByte (v : Byte) : (ofByte v).toByte = v ||| 0x30 := by
  revert v
  decide

theorem toByte_inj {p q : Flags} (h : p.toByte = q.toByte) : p = q := by
  rw [← ofByte_toByte p, h, ofByte_toByte]

end Flags

end Cmos6502
