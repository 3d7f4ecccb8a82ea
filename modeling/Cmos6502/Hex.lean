import Cmos6502.Word

namespace Cmos6502

def hexDigit (n : Nat) : Char :=
  if n < 10 then Char.ofNat (48 + n) else Char.ofNat (55 + n)

/-- The last `k` upper-case hexadecimal digits of `n`, the highest first. -/
def hexDigits : Nat → Nat → List Char
  | 0, _ => []
  | k + 1, n => hexDigits k (n / 16) ++ [hexDigit (n % 16)]

def Byte.hex (b : Byte) : String := String.ofList (hexDigits 2 b.toNat)

def Word.hex (w : Word) : String := String.ofList (hexDigits 4 w.toNat)

def padded (k : Nat) (s : String) : String :=
  s ++ String.ofList (List.replicate (k - s.length) ' ')

theorem length_hexDigits (k n : Nat) : (hexDigits k n).length = k := by
  induction k generalizing n with
  | zero => rfl
  | succ k ih => simp [hexDigits, ih]

theorem hexDigit_inj {m n : Nat} (hm : m < 16) (hn : n < 16) (h : hexDigit m = hexDigit n) :
    m = n := by
  have table : ∀ i < 16, ∀ j < 16, hexDigit i = hexDigit j → i = j := by decide
  exact table m hm n hn h

theorem hexDigits_inj {k m n : Nat} (hm : m < Nat.pow 16 k) (hn : n < Nat.pow 16 k)
    (h : hexDigits k m = hexDigits k n) : m = n := by
  induction k generalizing m n with
  | zero => simp at hm hn; omega
  | succ k ih =>
    have hm' : m / 16 < Nat.pow 16 k := Nat.div_lt_of_lt_mul (Nat.mul_comm _ 16 ▸ hm)
    have hn' : n / 16 < Nat.pow 16 k := Nat.div_lt_of_lt_mul (Nat.mul_comm _ 16 ▸ hn)
    have hl : (hexDigits k (m / 16)).length = (hexDigits k (n / 16)).length := by
      simp only [length_hexDigits]
    obtain ⟨hh, ht⟩ := List.append_inj h hl
    have h1 := ih hm' hn' hh
    have h2 := hexDigit_inj (by omega) (by omega) (List.singleton_inj.1 ht)
    omega

end Cmos6502
