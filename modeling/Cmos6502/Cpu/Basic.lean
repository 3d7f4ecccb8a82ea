import Cmos6502.State.Step

namespace Cmos6502

structure Config where
  policy : Policy
  resetHoldEdges : Byte
deriving DecidableEq

namespace Config

def standard : Config := ⟨.sized, 2⟩

def resetThreshold (c : Config) : Byte := if c.resetHoldEdges = 0 then 1 else c.resetHoldEdges

end Config

namespace Bus

def releaseStatus (bus : Bus) : Bus :=
  { bus with sync := .released, vectorPull := .released, memoryLock := .released }

def signal (bus : Bus) (fetch vector lock : Bool) : Bus :=
  { bus with
    sync := .ofAsserted fetch
    vectorPull := .ofAsserted vector
    memoryLock := .ofAsserted lock }

def driveTransfer (bus : Bus) (t : Transfer) : Bus :=
  if bus.busEnable.asserted then
    match t with
    | .read a => bus.driveRead a
    | .write a v => bus.driveWrite a v
  else bus

end Bus

/-- `inFlight` is the transfer that the first half of an edge has begun and the
second half will finish; `cycles` counts the finished ones. -/
structure Cpu where
  config : Config
  state : State
  inFlight : Option (MicroOp × Transfer)
  cycles : Nat
deriving DecidableEq

namespace Cpu

def powerOn (config : Config) : Cpu := ⟨config, .powerOn, none, 0⟩

def startAt (c : Cpu) (regs : Registers) : Cpu :=
  { c with state := c.state.startAt regs, inFlight := none }

def withRegs (c : Cpu) (regs : Registers) : Cpu := { c with state.regs := regs }

def begin (c : Cpu) (bus : Bus) : Cpu × Bus :=
  let s := c.state.settle
  let op := s.currentOp
  let t := op.transfer s
  ({ c with state := s, inFlight := some (op, t) },
    (bus.signal (op = .fetchOpcode) op.pullsVector s.locksMemory).driveTransfer t)

/-- Inputs are sampled even while the processor is held, but a stopped processor
samples nothing. -/
def drive (c : Cpu) (bus : Bus) : Cpu × Bus :=
  let c := { c with state := c.state.watch bus, inFlight := none }
  if c.state.suspended then (c, bus.releaseStatus)
  else if bus.ready.asserted then c.begin bus
  else (c, bus)

def received (t : Transfer) (bus : Bus) : Byte :=
  match t with
  | .read _ => bus.data
  | .write _ v => v

def finish (c : Cpu) (bus : Bus) : Cpu :=
  match c.inFlight with
  | none => c
  | some (op, t) =>
    { c with
      state := c.state.finish c.config.policy op (received t bus)
      inFlight := none
      cycles := c.cycles + 1 }

def held (hold : Byte) : Byte := if hold = 255 then 255 else hold + 1

/-- The state of a reset: nothing is kept but where the processor was and what it
knows of its lines. -/
def resetState (s : State) (hold : Byte) : State :=
  { State.powerOn with
    regs.pc := s.regs.pc
    requests.nmiHeld := s.requests.nmiHeld
    resetHold := hold }

/-- Reset is honoured on every edge that holds it for long enough, whether or not
the processor runs. -/
def checkReset (c : Cpu) (bus : Bus) : Cpu :=
  if !bus.reset.asserted then { c with state.resetHold := 0 }
  else
    let hold := held c.state.resetHold
    if hold < c.config.resetThreshold then { c with state.resetHold := hold }
    else { c with state := resetState c.state hold, inFlight := none }

def latch (c : Cpu) (bus : Bus) : Cpu := (c.finish bus).checkReset bus

end Cpu

end Cmos6502
