import Cmos6502.Cpu.Report
import Cmos6502.Memory.Basic

namespace Cmos6502

/-- A processor and its memories on one bus; the processor drives first, so that
the memories answer it on the same edge. -/
abbrev Computer := Board (Cpu × List Memory)

namespace Computer

def powerOn (config : Config) (memories : List Memory) : Computer :=
  .start (.powerOn config, memories)

def cpu (m : Computer) : Cpu := m.chips.1

def memories (m : Computer) : List Memory := m.chips.2

def withCpu (m : Computer) (c : Cpu) : Computer := { m with chips := (c, m.memories) }

def withMemories (m : Computer) (memories : List Memory) : Computer :=
  { m with chips := (m.cpu, memories) }

def driveCpu (m : Computer) : Computer × List Report :=
  ({ m.withCpu (m.cpu.drive m.bus).1 with bus := (m.cpu.drive m.bus).2 },
    m.cpu.driveReports m.bus)

def driveMemories (m : Computer) : Computer :=
  let p : Phase Report (List Memory) := Chip.drive m.memories m.bus
  { m.withMemories p.chip with bus := p.bus }

def latchCpu (m : Computer) : Computer × List Report :=
  (m.withCpu (m.cpu.latch m.bus), m.cpu.latchReports m.bus)

def peek (m : Computer) (a : Word) : Byte :=
  match m.memories.find? (·.contains a) with
  | some memory => memory.peek a
  | none => 0xFF

/-- The first memory that holds the address takes the image. -/
def loadFirst (a : Word) (image : List Byte) : List Memory → Except MemoryError (List Memory)
  | [] => .error (.outOfRange a image.length)
  | m :: ms =>
    if m.contains a then (m.load a image).map (· :: ms)
    else (loadFirst a image ms).map (m :: ·)

def load (m : Computer) (a : Word) (image : List Byte) : Except MemoryError Computer :=
  (loadFirst a image m.memories).map m.withMemories

structure Sample where
  bus : Bus
  state : State
deriving DecidableEq

structure Run where
  computer : Computer
  samples : List Sample
  reports : List Report

namespace Run

def none (m : Computer) : Run := ⟨m, [], []⟩

def andThen (r : Run) (next : Computer → Run) : Run :=
  let q := next r.computer
  ⟨q.computer, r.samples ++ q.samples, r.reports ++ q.reports⟩

end Run

def edge (m : Computer) : Run :=
  let p : Computer × List Report := Board.edge m
  ⟨p.1, [⟨p.1.bus, p.1.cpu.state⟩], p.2⟩

def pulses : Nat → Computer → Run
  | 0, m => .none m
  | n + 1, m => m.edge.andThen (pulses n)

/-- Edges up to the first that ends a sequence, and no more than `limit`. -/
def instruction : Nat → Computer → Run
  | 0, m => .none m
  | limit + 1, m =>
    let r := m.edge
    if r.computer.cpu.state.atBoundary then r else r.andThen (instruction limit)

def instructions (limit : Nat) : Nat → Computer → Run
  | 0, m => .none m
  | n + 1, m => (m.instruction limit).andThen (instructions limit n)

structure Stop where
  regs : Registers
  edges : Nat
deriving DecidableEq

structure Walk where
  computer : Computer
  stops : List Stop
  reports : List Report

/-- At most `n` instructions, and none once the processor has stopped. -/
def walk (limit : Nat) : Nat → Computer → Walk
  | 0, m => ⟨m, [], []⟩
  | n + 1, m =>
    if m.cpu.state.stopped then ⟨m, [], []⟩
    else
      let r := m.instruction limit
      let w := walk limit n r.computer
      ⟨w.computer, ⟨r.computer.cpu.state.regs, r.samples.length⟩ :: w.stops,
        r.reports ++ w.reports⟩

end Computer

end Cmos6502
