import Cmos6502.Board
import Cmos6502.Hex

namespace Cmos6502

inductive MemoryError where
  | outOfRange (address : Word) (length : Nat)
  | emptyRegion
deriving DecidableEq

def MemoryError.message : MemoryError → String
  | .outOfRange a n => s!"{n} bytes at ${a.hex} do not fit in the memory window"
  | .emptyRegion => "memory region is empty"

/-- A RAM or ROM that owns the `length` addresses from `base` on, with no wrap
at the top of the address space. -/
structure Memory where
  base : Word
  length : Nat
  bytes : Vector Byte length
  writable : Bool
  nonempty : 0 < length
  fits : base.toNat + length ≤ 0x10000

namespace Memory

def offset? (m : Memory) (a : Word) : Option (Fin m.length) :=
  if h : m.base.toNat ≤ a.toNat ∧ a.toNat < m.base.toNat + m.length then
    some ⟨a.toNat - m.base.toNat, by omega⟩
  else none

def contains (m : Memory) (a : Word) : Bool := (m.offset? a).isSome

def peek (m : Memory) (a : Word) : Byte :=
  match m.offset? a with
  | some i => m.bytes[i]
  | none => 0xFF

def poke (m : Memory) (a : Word) (v : Byte) : Memory :=
  match m.offset? a with
  | some i => { m with bytes := m.bytes.set i v }
  | none => m

def fill (m : Memory) (a : Word) : List Byte → Memory
  | [] => m
  | v :: vs => (m.poke a v).fill (a + 1) vs

def ram (base : Word) (length : Nat) : Except MemoryError Memory :=
  if h : length = 0 then .error .emptyRegion
  else if h' : 0x10000 < base.toNat + length then .error (.outOfRange base length)
  else .ok ⟨base, length, .replicate length 0, true, by omega, by omega⟩

def rom (base : Word) (image : List Byte) : Except MemoryError Memory :=
  (ram base image.length).map fun m => { m.fill base image with writable := false }

/-- All of `image` is copied or, when it would leave the window, none of it;
write protection does not matter. -/
def load (m : Memory) (a : Word) (image : List Byte) : Except MemoryError Memory :=
  if m.contains a ∧ a.toNat + image.length ≤ m.base.toNat + m.length then .ok (m.fill a image)
  else .error (.outOfRange a image.length)

def store (m : Memory) (bus : Bus) : Memory :=
  if bus.isWrite && m.writable then m.poke bus.address bus.data else m

def answer (m : Memory) (bus : Bus) : Bus :=
  if !bus.isWrite && m.contains bus.address then { bus with data := m.peek bus.address } else bus

instance {ε : Type} : Chip ε Memory where
  drive m bus := ⟨m.store bus, m.answer bus, []⟩
  latch m bus := ⟨m, bus, []⟩

end Memory

end Cmos6502
