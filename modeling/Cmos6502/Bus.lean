import Cmos6502.Line
import Cmos6502.Word

namespace Cmos6502

inductive Pin where
  | rw | irq | nmi | reset | busEnable | ready | sync | memoryLock | vectorPull | setOverflow
deriving DecidableEq

/-- The CPU owns `rw`, `sync`, `memoryLock` and `vectorPull`; the board owns the
rest. An asserted `rw` means a write. -/
def Pin.polarity : Pin → Polarity
  | .busEnable | .ready | .sync => .activeHigh
  | .rw | .irq | .nmi | .reset | .memoryLock | .vectorPull | .setOverflow => .activeLow

structure Bus where
  address : Word
  data : Byte
  rw : Line (Pin.polarity .rw)
  irq : Line (Pin.polarity .irq)
  nmi : Line (Pin.polarity .nmi)
  reset : Line (Pin.polarity .reset)
  busEnable : Line (Pin.polarity .busEnable)
  ready : Line (Pin.polarity .ready)
  sync : Line (Pin.polarity .sync)
  memoryLock : Line (Pin.polarity .memoryLock)
  vectorPull : Line (Pin.polarity .vectorPull)
  setOverflow : Line (Pin.polarity .setOverflow)
deriving DecidableEq

namespace Bus

/-- Nothing is asked for: the CPU may run and drive, and reads address zero. -/
def quiet : Bus where
  address := 0
  data := 0
  rw := .released
  irq := .released
  nmi := .released
  reset := .released
  busEnable := .held
  ready := .held
  sync := .released
  memoryLock := .released
  vectorPull := .released
  setOverflow := .released

def isWrite (b : Bus) : Bool := b.rw.asserted

def driveRead (b : Bus) (a : Word) : Bus := { b with address := a, rw := .released }

def driveWrite (b : Bus) (a : Word) (v : Byte) : Bus :=
  { b with address := a, data := v, rw := .held }

def line (b : Bus) : (pin : Pin) → Line pin.polarity
  | .rw => b.rw
  | .irq => b.irq
  | .nmi => b.nmi
  | .reset => b.reset
  | .busEnable => b.busEnable
  | .ready => b.ready
  | .sync => b.sync
  | .memoryLock => b.memoryLock
  | .vectorPull => b.vectorPull
  | .setOverflow => b.setOverflow

def setLine (b : Bus) : (pin : Pin) → Line pin.polarity → Bus
  | .rw, l => { b with rw := l }
  | .irq, l => { b with irq := l }
  | .nmi, l => { b with nmi := l }
  | .reset, l => { b with reset := l }
  | .busEnable, l => { b with busEnable := l }
  | .ready, l => { b with ready := l }
  | .sync, l => { b with sync := l }
  | .memoryLock, l => { b with memoryLock := l }
  | .vectorPull, l => { b with vectorPull := l }
  | .setOverflow, l => { b with setOverflow := l }

@[simp] theorem line_setLine (b : Bus) (pin : Pin) (l : Line pin.polarity) :
    (b.setLine pin l).line pin = l := by
  cases pin <;> rfl

theorem line_setLine_of_ne (b : Bus) {pin other : Pin} (l : Line pin.polarity)
    (h : other ≠ pin) : (b.setLine pin l).line other = b.line other := by
  cases pin <;> cases other <;> simp_all [line, setLine]

end Bus

end Cmos6502
