import Cmos6502.Computer
import Cmos6502.Proofs.Edge

namespace Cmos6502

structure Inputs where
  irq : Bool
  nmi : Bool
  reset : Bool
  busEnable : Bool
  ready : Bool
  setOverflow : Bool
deriving DecidableEq

def Inputs.quiet : Inputs := ⟨false, false, false, true, true, false⟩

namespace Bus

def inputs (b : Bus) : Inputs where
  irq := b.irq.asserted
  nmi := b.nmi.asserted
  reset := b.reset.asserted
  busEnable := b.busEnable.asserted
  ready := b.ready.asserted
  setOverflow := b.setOverflow.asserted

def withInputs (b : Bus) (i : Inputs) : Bus :=
  { b with
    irq := .ofAsserted i.irq
    nmi := .ofAsserted i.nmi
    reset := .ofAsserted i.reset
    busEnable := .ofAsserted i.busEnable
    ready := .ofAsserted i.ready
    setOverflow := .ofAsserted i.setOverflow }

variable (b : Bus) (i : Inputs)

@[simp] theorem inputs_withInputs : (b.withInputs i).inputs = i := by
  simp [inputs, withInputs]

@[simp] theorem withInputs_inputs : b.withInputs b.inputs = b := by
  simp [inputs, withInputs]

end Bus

theorem Cpu.inputs_drive (c : Cpu) (bus : Bus) : (c.drive bus).2.inputs = bus.inputs := by
  have htransfer (b : Bus) (t : Transfer) : (b.driveTransfer t).inputs = b.inputs := by
    simp only [Bus.driveTransfer]
    split
    · cases t <;> rfl
    · rfl
  simp only [Cpu.drive]
  split
  · rfl
  · split
    · exact htransfer _ _
    · rfl

namespace Computer

def respond (ms : List Memory) (bus : Bus) : Phase Report (List Memory) := Chip.drive ms bus

theorem respond_cons (m : Memory) (ms : List Memory) (bus : Bus) :
    respond (m :: ms) bus =
      { chip := m.store bus :: (respond ms (m.answer bus)).chip
        bus := (respond ms (m.answer bus)).bus
        reports := (respond ms (m.answer bus)).reports } := rfl

theorem answer_withInputs (m : Memory) (bus : Bus) (i : Inputs) :
    m.answer (bus.withInputs i) = (m.answer bus).withInputs i := by
  simp only [Memory.answer]
  split <;> split <;> simp_all [Bus.withInputs, Bus.isWrite]

theorem respond_withInputs (ms : List Memory) (bus : Bus) (i : Inputs) :
    (respond ms (bus.withInputs i)).chip = (respond ms bus).chip ∧
      (respond ms (bus.withInputs i)).bus = (respond ms bus).bus.withInputs i := by
  induction ms generalizing bus with
  | nil => exact ⟨rfl, rfl⟩
  | cons m ms ih =>
    obtain ⟨hc, hb⟩ := ih (m.answer bus)
    rw [respond_cons, respond_cons, answer_withInputs]
    exact ⟨congrArg (m.store bus :: ·) hc, hb⟩

theorem inputs_respond (ms : List Memory) (bus : Bus) :
    (respond ms bus).bus.inputs = bus.inputs := by
  have h := (respond_withInputs ms bus bus.inputs).2
  rw [Bus.withInputs_inputs] at h
  rw [h, Bus.inputs_withInputs]

def settle (ms : List Memory) (bus : Bus) : Phase Report (List Memory) := Chip.latch ms bus

theorem settle_eq (ms : List Memory) (bus : Bus) : settle ms bus = ⟨ms, bus, []⟩ := by
  induction ms with
  | nil => rfl
  | cons m ms ih =>
    have hc : settle (m :: ms) bus =
        ⟨m :: (settle ms bus).chip, (settle ms bus).bus, (settle ms bus).reports⟩ := rfl
    rw [hc, ih]

/-- A clock edge: the processor drives, the memories respond, and the processor
latches what has settled. -/
theorem edge_computer (m : Computer) :
    let p := respond m.memories (m.cpu.drive m.bus).2
    m.edge.computer =
      { chips := (m.cpu.edge m.bus p.bus, p.chip)
        bus := p.bus
        edges := m.edges + ⟨1⟩ } := by
  intro p
  have h : m.edge.computer =
      { chips := (m.cpu.edge m.bus p.bus, (settle p.chip p.bus).chip)
        bus := (settle p.chip p.bus).bus
        edges := m.edges + ⟨1⟩ } := rfl
  rw [h, settle_eq]

def under (m : Computer) (i : Inputs) : Computer := { m with bus := m.bus.withInputs i }

/-- The computer after the first `n` edges of a waveform, which gives the input
lines of each edge. -/
def follow (m : Computer) (w : Nat → Inputs) : Nat → Computer
  | 0 => m
  | n + 1 => ((m.follow w n).under (w n)).edge.computer

theorem follow_succ (m : Computer) (w : Nat → Inputs) (n : Nat) :
    m.follow w (n + 1) = ((m.follow w n).under (w n)).edge.computer := rfl

@[simp] theorem cpu_under (m : Computer) (i : Inputs) : (m.under i).cpu = m.cpu := rfl

@[simp] theorem memories_under (m : Computer) (i : Inputs) :
    (m.under i).memories = m.memories := rfl

@[simp] theorem bus_under (m : Computer) (i : Inputs) : (m.under i).bus = m.bus.withInputs i := rfl

/-- The wires on which everything latches at the end of the next edge. -/
def settled (m : Computer) : Bus := (respond m.memories (m.cpu.drive m.bus).2).bus

theorem cpu_edge (m : Computer) : m.edge.computer.cpu = m.cpu.edge m.bus m.settled := by
  rw [edge_computer]
  rfl

theorem bus_edge (m : Computer) : m.edge.computer.bus = m.settled := by
  rw [edge_computer]
  rfl

theorem memories_edge (m : Computer) :
    m.edge.computer.memories = (respond m.memories (m.cpu.drive m.bus).2).chip := by
  rw [edge_computer]
  rfl

theorem reachable_follow {m : Computer} (h : m.cpu.Reachable) (w : Nat → Inputs) (n : Nat) :
    (m.follow w n).cpu.Reachable := by
  induction n with
  | zero => exact h
  | succ n ih =>
    rw [follow_succ, cpu_edge]
    exact .latch _ (.drive _ ih)

theorem inputs_settled (m : Computer) : m.settled.inputs = m.bus.inputs := by
  rw [settled, inputs_respond, Cpu.inputs_drive]

end Computer

end Cmos6502
