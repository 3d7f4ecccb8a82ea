import Cmos6502.Bus
import Cmos6502.MicroOp.Completion

namespace Cmos6502.State

variable (s : State)

def currentOp : MicroOp :=
  match s.step with
  | 0 => if s.sequence = .instruction then .fetchOpcode else .dummyProgram
  | k + 1 => s.mode.microOps.getD k .dummyProgram

/-- An edge outranks a level, and a level counts only while interrupts are
enabled. -/
def next : Sequence :=
  if s.requests.nmi then .nmi
  else if s.requests.irq && !s.regs.p.interruptDisable then .irq
  else .instruction

/-- Cross into the next sequence. Entering an interrupt ends a wait, and entering
for an edge uses the edge up. -/
def boundary : State :=
  match s.next with
  | .instruction => s.restart .instruction
  | .nmi => { s.restart .nmi with requests.nmi := false, paused := false }
  | entry => { s.restart entry with paused := false }

def remaining : List MicroOp := (s.mode.microOps.drop s.step).dropWhile (·.passedOver s)

def advance : State :=
  match s.remaining with
  | [] => s.boundary
  | left => { s with step := s.mode.cycles - left.length }

def settle : State := if s.currentOp.passedOver s then s.advance else s

def latchOpcode (policy : Policy) (opcode : Byte) : State :=
  { s with instruction := .decode policy opcode }

def executed (policy : Policy) (op : MicroOp) (v : Byte) : State :=
  let t := op.complete s v
  if op = .fetchOpcode then t.latchOpcode policy v else t

def finish (policy : Policy) (op : MicroOp) (v : Byte) : State := (s.executed policy op v).advance

def sample (bus : Bus) : State :=
  { s with
    regs.p.overflow := s.regs.p.overflow || bus.setOverflow.asserted
    requests.irq := bus.irq.asserted
    requests.nmi := s.requests.nmi || (bus.nmi.asserted && !s.requests.nmiHeld)
    requests.nmiHeld := bus.nmi.asserted }

/-- A masked interrupt ends a wait as well, without being entered. -/
def wakes : Bool := s.paused && (s.requests.nmi || s.requests.irq)

def wake : State := if s.wakes then { s with paused := false }.boundary else s

def watch (bus : Bus) : State := if s.stopped then s else (s.sample bus).wake

def suspended : Bool := s.stopped || s.paused

def locksMemory : Bool :=
  0 < s.step && s.mode.readsThenWrites && s.mode.cycles ≤ s.step + 3

end Cmos6502.State
