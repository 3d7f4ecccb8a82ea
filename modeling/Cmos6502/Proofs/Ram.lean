import Cmos6502.Memory.Lemmas
import Cmos6502.Proofs.Requests

namespace Cmos6502

def Transfer.writes : Transfer → Bool
  | read _ => false
  | write _ _ => true

def MicroOp.writes : MicroOp → Bool
  | writeEffective | pushValue | writeLatched | pushHigh | pushLow | pushStatus _ => true
  | _ => false

theorem MicroOp.writes_transfer (op : MicroOp) (s : State) :
    (op.transfer s).writes = op.writes := by
  cases op <;> rfl

namespace Memory

/-- A memory that owns every address and takes every write. -/
structure Full (ram : Memory) : Prop where
  length : ram.length = 0x10000
  writable : ram.writable = true

def exchange (ram : Memory) : Transfer → Byte × Memory
  | .read a => (ram.peek a, ram)
  | .write a v => (v, ram.poke a v)

variable {ram : Memory}

theorem contains_of_length (h : ram.length = 0x10000) (a : Word) : ram.contains a = true := by
  have hf := ram.fits
  have ha := a.isLt
  rw [contains_iff]
  rw [h] at hf ⊢
  omega

theorem Full.contains (h : ram.Full) (a : Word) : ram.contains a = true :=
  contains_of_length h.length a

theorem Full.poke (h : ram.Full) (a : Word) (v : Byte) : (ram.poke a v).Full where
  length := (length_poke ram a v).trans h.length
  writable := (writable_poke ram a v).trans h.writable

theorem Full.exchange (h : ram.Full) (t : Transfer) : (ram.exchange t).2.Full := by
  cases t with
  | read a => exact h
  | write a v => exact h.poke a v

def blank : Memory where
  base := 0
  length := 0x10000
  bytes := .replicate 0x10000 0
  writable := true
  nonempty := by decide
  fits := Nat.le_refl _

theorem ram_eq_blank : Memory.ram 0 0x10000 = .ok blank := by
  rw [Memory.ram, dif_neg (by decide), dif_neg (by decide)]
  rfl

theorem full_blank : blank.Full := ⟨rfl, rfl⟩

theorem peek_blank (a : Word) : blank.peek a = 0 := by
  simp only [peek]
  split
  · exact Vector.getElem_replicate _
  · next h =>
    have hc := full_blank.contains a
    simp [contains, h] at hc

theorem Full.peek_poke (h : ram.Full) (a b : Word) (v : Byte) :
    (ram.poke a v).peek b = if b = a then v else ram.peek b := by
  simp only [Memory.peek_poke, h.contains a, and_true]

theorem store_answer (hl : ram.length = 0x10000) {bus : Bus} (hb : bus.busEnable.asserted = true)
    {t : Transfer} (hw : ram.writable = true ∨ t.writes = false) :
    ram.store (bus.driveTransfer t) = (ram.exchange t).2 ∧
      Cpu.received t (ram.answer (bus.driveTransfer t)) = (ram.exchange t).1 ∧
      (ram.answer (bus.driveTransfer t)).isWrite = t.writes := by
  cases t with
  | read a =>
    have hd : bus.driveTransfer (.read a) = bus.driveRead a := if_pos hb
    have hr : (bus.driveRead a).isWrite = false := Line.asserted_released
    have hc : ram.contains (bus.driveRead a).address = true := contains_of_length hl a
    simp only [hd, store, answer, hr, hc, Bool.false_and, Bool.not_false, Bool.true_and]
    exact ⟨rfl, rfl, hr⟩
  | write a v =>
    have hd : bus.driveTransfer (.write a v) = bus.driveWrite a v := if_pos hb
    have hr : (bus.driveWrite a v).isWrite = true := Line.asserted_held
    have hon : ram.writable = true := hw.resolve_right fun h => Bool.noConfusion h
    simp only [hd, store, answer, hr, hon, Bool.true_and]
    exact ⟨rfl, rfl, hr⟩

end Memory

namespace State

variable (s : State)

/-- The state a cycle leaves when nothing is asked for and a memory answers. -/
def cycleOn (policy : Policy) (ram : Memory) : State :=
  let t := s.withRequests ⟨false, s.requests.nmi, false⟩
  (t.finish policy s.currentOp (ram.exchange (s.currentOp.transfer s)).1).withHold 0

theorem watch_of_quiet {s : State} (h : s.suspended = false) {bus : Bus}
    (hq : bus.inputs = .quiet) :
    s.watch bus = s.withRequests ⟨false, s.requests.nmi, false⟩ := by
  have hbus : bus = bus.withInputs .quiet := by rw [← hq, Bus.withInputs_inputs]
  rw [watch_of_running h, hbus, sample_withInputs]
  simp only [Inputs.quiet, Requests.after, Bool.or_false, Bool.false_and]
  rfl

end State

namespace Computer

variable {m : Computer} {ram : Memory}

theorem edge_of_whole (hw : m.cpu.state.WellFormed) (hs : m.cpu.state.suspended = false)
    (hm : m.memories = [ram]) (hl : ram.length = 0x10000)
    (hon : ram.writable = true ∨ m.cpu.state.currentOp.writes = false)
    (hready : m.bus.inputs.ready = true) (hen : m.bus.inputs.busEnable = true)
    (hreset : m.bus.inputs.reset = false) :
    let op := m.cpu.state.currentOp
    let t := m.cpu.state.sample m.bus
    let x := ram.exchange (op.transfer t)
    let e := m.edge.computer
    e.cpu = m.cpu.completes ((t.finish m.cpu.config.policy op x.1).withHold 0) ∧
      e.memories = [x.2] ∧ e.bus.isWrite = op.writes := by
  intro op t x e
  have hwatch : m.cpu.state.watch m.bus = t := State.watch_of_running hs m.bus
  have hrun : m.cpu.runs m.bus = true := by
    have h := Cpu.runs_of_running hs m.bus m.bus.inputs
    rwa [Bus.withInputs_inputs, hready] at h
  have hdrive : m.cpu.drive m.bus = (m.cpu.starts t, t.drives m.bus) := by
    rw [Cpu.drive_of_runs hw hrun, hwatch]
  have hbus : (m.bus.signal (op = .fetchOpcode) op.pullsVector
      t.locksMemory).busEnable.asserted = true := hen
  have hwrites : ram.writable = true ∨ (op.transfer t).writes = false := by
    rw [MicroOp.writes_transfer]
    exact hon
  obtain ⟨hstore, hread, hwrite⟩ :
      ram.store (t.drives m.bus) = x.2 ∧
      Cpu.received (op.transfer t) (ram.answer (t.drives m.bus)) = x.1 ∧
      (ram.answer (t.drives m.bus)).isWrite = (op.transfer t).writes :=
    Memory.store_answer hl hbus hwrites
  have hsettled : m.settled = ram.answer (t.drives m.bus) := by
    rw [settled, hdrive, hm]
    rfl
  have hreleased : m.settled.reset.asserted = false :=
    (congrArg Inputs.reset (inputs_settled m)).trans hreset
  refine ⟨?_, ?_, ?_⟩
  · rw [cpu_edge, Cpu.edge_of_runs hw hrun (Cpu.not_recognised_of_released hreleased), hwatch,
      Cpu.countReset, hreleased, State.cycle, hsettled]
    change m.cpu.completes ((t.finish _ op (Cpu.received (op.transfer t) _)).withHold 0) = _
    rw [hread]
  · rw [memories_edge, hdrive, hm, ← hstore]
    rfl
  · rw [bus_edge, hsettled, hwrite, MicroOp.writes_transfer]

theorem edge_of_full (hw : m.cpu.state.WellFormed) (hs : m.cpu.state.suspended = false)
    (hm : m.memories = [ram]) (hf : ram.Full) (hq : m.bus.inputs = .quiet) :
    let s := m.cpu.state
    let e := m.edge.computer
    e.cpu = m.cpu.completes (s.cycleOn m.cpu.config.policy ram) ∧
      e.memories = [(ram.exchange (s.currentOp.transfer s)).2] ∧ e.bus.inputs = .quiet := by
  intro s e
  have hsample : s.sample m.bus = s.withRequests ⟨false, s.requests.nmi, false⟩ := by
    rw [← State.watch_of_running hs]
    exact State.watch_of_quiet hs hq
  obtain ⟨hcpu, hmem, -⟩ := edge_of_whole hw hs hm hf.length (.inl hf.writable)
    (by rw [hq]; rfl) (by rw [hq]; rfl) (by rw [hq]; rfl)
  rw [hsample, State.transfer_withRequests] at hcpu hmem
  refine ⟨hcpu, hmem, ?_⟩
  rw [bus_edge, inputs_settled, hq]

end Computer

end Cmos6502
