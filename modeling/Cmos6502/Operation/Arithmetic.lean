import Cmos6502.Word

namespace Cmos6502

/-- A byte sum or difference with what it carried, or did not have to borrow,
and whether it left the signed range. -/
structure Sum where
  value : Byte
  carry : Bool
  overflow : Bool
deriving DecidableEq

namespace Sum

variable (a v : Byte) (carry : Bool)

def add : Sum :=
  let s := a.toNat + v.toNat + carry.toNat
  let r := BitVec.ofNat 8 s
  ⟨r, 255 < s, ((a ^^^ r) &&& (v ^^^ r)).msb⟩

def sub : Sum := add a (~~~v) carry

def adjust (digit : Nat) : Nat := if 9 < digit then digit + 6 else digit

/-- Decimal addition digit by digit. Overflow is read before the high digit is
adjusted. -/
def addDecimal : Sum :=
  let lo := adjust (a.toNat % 16 + v.toNat % 16 + carry.toNat)
  let hi := a.toNat / 16 + v.toNat / 16 + (decide (15 < lo)).toNat
  let half := BitVec.ofNat 8 (16 * hi + lo % 16)
  ⟨.ofNat 8 (16 * adjust hi + lo % 16), 15 < adjust hi, ((a ^^^ half) &&& (v ^^^ half)).msb⟩

/-- Decimal subtraction corrects the binary difference, once for each digit that
had to borrow; carry and overflow are those of the binary difference. -/
def subDecimal : Sum :=
  let borrow : Int := (!carry).toNat
  let d : Int := a.toNat - v.toNat - borrow
  let lo : Int := (a.toNat % 16 : Nat) - (v.toNat % 16 : Nat) - borrow
  let correction : Int := (if d < 0 then 0x60 else 0) + (if lo < 0 then 0x06 else 0)
  ⟨.ofInt 8 (d - correction), 0 ≤ d, ((a ^^^ .ofInt 8 d) &&& (a ^^^ v)).msb⟩

end Sum

end Cmos6502
