import Cmos6502.Board
import Cmos6502.Cpu.Basic
import Cmos6502.Hex
import Cmos6502.Mode.Format
import Cmos6502.Operation.Mnemonic

namespace Cmos6502

inductive Report where
  | fetched (instruction : Instruction) (regs : Registers)
  | released (pc : Word)
  | entered (sequence : Sequence) (pc : Word) (p : Flags)
  | waiting (pc : Word)
  | stopping (pc : Word)
  | reset (threshold : Byte) (pc : Word)
deriving DecidableEq

def Sequence.title : Sequence → String
  | instruction => "Opcode"
  | irq => "Irq"
  | nmi => "Nmi"
  | reset => "Reset"

namespace Report

def level : Report → String
  | fetched _ _ => "TRACE"
  | _ => "DEBUG"

def message : Report → String
  | fetched i r =>
    s!"${Word.hex (r.pc - 1)}  {i.opcode.hex}  {padded 4 i.operation.mnemonic} "
      ++ s!"{padded 14 i.mode.name} A={r.a.hex} X={r.x.hex} Y={r.y.hex} SP={r.sp.hex} "
      ++ s!"P={r.p.text}"
  | released pc => s!"WAI released at ${pc.hex}"
  | entered sequence pc p => s!"{sequence.title} entry at ${pc.hex}, P={p.text}"
  | waiting pc => s!"WAI at ${pc.hex}: waiting for interrupt"
  | stopping pc => s!"STP at ${pc.hex}: stopped until reset"
  | reset threshold pc => s!"RESET after {threshold.toNat} low edges at ${pc.hex}"

def line (r : Report) : String := s!"{r.level} {r.message}"

end Report

namespace State

variable (s : State)

def boundaryReports : List Report :=
  if s.next = .instruction then []
  else (if s.paused then [.released s.regs.pc] else []) ++ [.entered s.next s.regs.pc s.regs.p]

def advanceReports : List Report := if s.remaining.isEmpty then s.boundaryReports else []

def settleReports : List Report := if s.currentOp.passedOver s then s.advanceReports else []

def wakeReports : List Report :=
  if s.wakes then .released s.regs.pc :: { s with paused := false }.boundaryReports else []

def performReports : List Report :=
  if s.operation = .implied .wai then [.waiting s.regs.pc]
  else if s.operation = .implied .stp then [.stopping s.regs.pc]
  else []

def executedReports (policy : Policy) (op : MicroOp) (v : Byte) : List Report :=
  if op = .executeImplied then s.performReports
  else if op = .fetchOpcode then [.fetched (.decode policy v) (op.complete s v).regs]
  else []

def finishReports (policy : Policy) (op : MicroOp) (v : Byte) : List Report :=
  s.executedReports policy op v ++ (s.executed policy op v).advanceReports

end State

namespace Cpu

variable (c : Cpu) (bus : Bus)

def driveReports : List Report :=
  if c.state.stopped then []
  else
    let s := c.state.watch bus
    (c.state.sample bus).wakeReports
      ++ (if !s.suspended && bus.ready.asserted then s.settleReports else [])

def finishReports : List Report :=
  match c.inFlight with
  | none => []
  | some (op, t) => c.state.finishReports c.config.policy op (received t bus)

def resetReports : List Report :=
  if bus.reset.asserted ∧ held c.state.resetHold = c.config.resetThreshold then
    [.reset c.config.resetThreshold c.state.regs.pc]
  else []

def latchReports : List Report := c.finishReports bus ++ (c.finish bus).resetReports bus

end Cpu

instance : Chip Report Cpu where
  drive c bus := ⟨(c.drive bus).1, (c.drive bus).2, c.driveReports bus⟩
  latch c bus := ⟨c.latch bus, bus, c.latchReports bus⟩

end Cmos6502
