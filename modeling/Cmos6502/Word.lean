namespace Cmos6502

abbrev Byte := BitVec 8
abbrev Word := BitVec 16

def Byte.toWord (b : Byte) : Word := b.setWidth 16

def Byte.displacement (b : Byte) : Word := b.signExtend 16

namespace Word

def low (w : Word) : Byte := w.setWidth 8

def high (w : Word) : Byte := w.extractLsb' 8 8

def orHigh (w : Word) (hi : Byte) : Word := w ||| hi.toWord <<< 8

def ofBytes (lo hi : Byte) : Word := orHigh lo.toWord hi

def samePage (v w : Word) : Bool := high v == high w

theorem low_ofBytes (lo hi : Byte) : low (ofBytes lo hi) = lo := by
  ext i
  simp [low, ofBytes, orHigh, Byte.toWord]

theorem high_ofBytes (lo hi : Byte) : high (ofBytes lo hi) = hi := by
  ext i h
  simp [high, ofBytes, orHigh, Byte.toWord, BitVec.getLsbD_eq_getElem, h,
    show 8 + i < 16 by omega]

theorem ofBytes_low_high (w : Word) : ofBytes (low w) (high w) = w := by
  ext i h
  by_cases hi : i < 8
  · simp [low, high, ofBytes, orHigh, Byte.toWord, hi, h, BitVec.getLsbD_eq_getElem]
  · simp [low, high, ofBytes, orHigh, Byte.toWord, hi, h, BitVec.getLsbD_eq_getElem,
      show 8 + (i - 8) = i by omega, show i - 8 < 8 by omega]

end Word

end Cmos6502
