import Cmos6502.Cpu.Basic
import Cmos6502.Hex
import Cmos6502.Mode.Format
import Cmos6502.Operation.Mnemonic

namespace Cmos6502

inductive Reading where
  | flag (on : Bool)
  | byte (v : Byte)
  | word (v : Word)
  | count (n : Nat)
  | name (s : String)
deriving DecidableEq

def Reading.text : Reading → String
  | flag on => if on then "true" else "false"
  | byte v => s!"${v.hex}"
  | word v => s!"${v.hex}"
  | count n => s!"{n}"
  | name s => s

namespace Cpu

def ofFlag (f : Flags → Bool) (c : Cpu) : Reading := .flag (f c.state.regs.p)

def gauges : List (String × (Cpu → Reading)) :=
  [("pc", fun c => .word c.state.regs.pc),
    ("a", fun c => .byte c.state.regs.a),
    ("x", fun c => .byte c.state.regs.x),
    ("y", fun c => .byte c.state.regs.y),
    ("s", fun c => .byte c.state.regs.sp),
    ("sp", fun c => .byte c.state.regs.sp),
    ("p", fun c => .byte c.state.regs.p.toByte),
    ("status", fun c => .byte c.state.regs.p.toByte),
    ("flags.c", ofFlag (·.carry)),
    ("flags.z", ofFlag (·.zero)),
    ("flags.i", ofFlag (·.interruptDisable)),
    ("flags.d", ofFlag (·.decimal)),
    ("flags.v", ofFlag (·.overflow)),
    ("flags.n", ofFlag (·.negative)),
    ("c", ofFlag (·.carry)),
    ("z", ofFlag (·.zero)),
    ("i", ofFlag (·.interruptDisable)),
    ("d", ofFlag (·.decimal)),
    ("v", ofFlag (·.overflow)),
    ("n", ofFlag (·.negative)),
    ("opcode", fun c => .byte c.state.instruction.opcode),
    ("mnemonic", fun c => .name c.state.operation.mnemonic),
    ("mode", fun c => .name c.state.mode.name),
    ("step", fun c => .count c.state.step),
    ("ir", fun c => .word c.state.latches.address),
    ("dr", fun c => .byte c.state.latches.data),
    ("irq_pending", fun c => .flag c.state.requests.irq),
    ("nmi_pending", fun c => .flag c.state.requests.nmi),
    ("cycle", fun c => .count c.cycles),
    ("paused", fun c => .flag c.state.paused),
    ("halted", fun c => .flag c.state.stopped),
    ("stopped", fun c => .flag c.state.stopped)]

def paths : List String := gauges.map Prod.fst

def query? (c : Cpu) (path : String) : Option Reading := (gauges.lookup path).map (· c)

end Cpu

end Cmos6502
