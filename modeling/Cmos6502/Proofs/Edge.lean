import Cmos6502.Proofs.Invariant

namespace Cmos6502

namespace State

variable (s : State)

def withHold (hold : Byte) : State := { s with resetHold := hold }

def drives (bus : Bus) : Bus :=
  (bus.signal (s.currentOp = .fetchOpcode) s.currentOp.pullsVector s.locksMemory).driveTransfer
    (s.currentOp.transfer s)

/-- The current micro-op completed with what has settled on the wires. -/
def cycle (policy : Policy) (settled : Bus) : State :=
  s.finish policy s.currentOp (Cpu.received (s.currentOp.transfer s) settled)

@[simp] theorem resetHold_boundary : s.boundary.resetHold = s.resetHold := by rw [boundary_eq]

theorem boundary_withHold (hold : Byte) :
    (s.withHold hold).boundary = s.boundary.withHold hold := by
  rw [boundary_eq, boundary_eq]
  rfl

@[simp] theorem resetHold_advance : s.advance.resetHold = s.resetHold := by
  obtain ⟨-, h⟩ | ⟨_, _, _, -, -, -, h⟩ := advance_cases s
  · rw [h, resetHold_boundary]
  · rw [h]
    rfl

@[simp] theorem requests_executed (policy : Policy) (op : MicroOp) (v : Byte) :
    (s.executed policy op v).requests = s.requests := by
  simp only [executed]
  split <;> exact MicroOp.requests_complete op s v

@[simp] theorem sequence_executed (policy : Policy) (op : MicroOp) (v : Byte) :
    (s.executed policy op v).sequence = s.sequence := by
  simp only [executed]
  split <;> exact MicroOp.sequence_complete op s v

@[simp] theorem resetHold_executed (policy : Policy) (op : MicroOp) (v : Byte) :
    (s.executed policy op v).resetHold = s.resetHold := by
  simp only [executed]
  split <;> exact MicroOp.resetHold_complete op s v

@[simp] theorem resetHold_cycle (policy : Policy) (settled : Bus) :
    (s.cycle policy settled).resetHold = s.resetHold := by
  rw [cycle, finish, resetHold_advance, resetHold_executed]

@[simp] theorem resetHold_watch (bus : Bus) : (s.watch bus).resetHold = s.resetHold := by
  simp only [watch, wake]
  split
  · rfl
  · split
    · rw [resetHold_boundary]
      rfl
    · rfl

end State

namespace Cpu

/-- Both halves of an edge, with the wires as the processor finds them in each. -/
def edge (c : Cpu) (bus settled : Bus) : Cpu := (c.drive bus).1.latch settled

/-- Whether reset has been held for long enough when the edge ends. -/
def recognisesReset (c : Cpu) (settled : Bus) : Bool :=
  settled.reset.asserted && !decide (held c.state.resetHold < c.config.resetThreshold)

def countReset (c : Cpu) (settled : Bus) : Byte :=
  if settled.reset.asserted then held c.state.resetHold else 0

def runs (c : Cpu) (bus : Bus) : Bool := !(c.state.watch bus).suspended && bus.ready.asserted

def starts (c : Cpu) (s : State) : Cpu :=
  { c with state := s, inFlight := some (s.currentOp, s.currentOp.transfer s) }

def idles (c : Cpu) (s : State) : Cpu := { c with state := s, inFlight := none }

def completes (c : Cpu) (s : State) : Cpu :=
  { c with state := s, inFlight := none, cycles := c.cycles + 1 }

variable {c : Cpu} {bus settled : Bus}

theorem Reachable.edge (h : c.Reachable) (bus settled : Bus) : (c.edge bus settled).Reachable :=
  .latch settled (.drive bus h)

theorem not_recognised_of_released (h : settled.reset.asserted = false) :
    c.recognisesReset settled = false := by
  rw [recognisesReset, h, Bool.false_and]

theorem checkReset_of_not_recognised (h : c.recognisesReset settled = false) :
    c.checkReset settled = { c with state := c.state.withHold (c.countReset settled) } := by
  simp only [recognisesReset, Bool.and_eq_false_iff, Bool.not_eq_false', decide_eq_true_eq] at h
  cases hr : settled.reset.asserted with
  | false => simp [checkReset, countReset, State.withHold, hr]
  | true =>
    have hl := h.resolve_left (by simp [hr])
    simp [checkReset, countReset, State.withHold, hr, hl]

theorem drive_of_not_runs (h : c.runs bus = false) :
    c.drive bus =
      (c.idles (c.state.watch bus),
        if (c.state.watch bus).suspended then bus.releaseStatus else bus) := by
  simp only [runs, Bool.and_eq_false_iff, Bool.not_eq_false'] at h
  simp only [drive, idles]
  split
  · rfl
  · next hs => rw [if_neg (by rw [h.resolve_left hs]; exact Bool.false_ne_true)]

theorem drive_of_runs (hw : c.state.WellFormed) (h : c.runs bus = true) :
    c.drive bus = (c.starts (c.state.watch bus), (c.state.watch bus).drives bus) := by
  simp only [runs, Bool.and_eq_true, Bool.not_eq_true'] at h
  simp only [drive, h.1, h.2, begin, (hw.watch bus).settle, Bool.false_eq_true, ↓reduceIte]
  rfl

theorem edge_of_not_runs (h : c.runs bus = false) (hr : c.recognisesReset settled = false) :
    c.edge bus settled = c.idles ((c.state.watch bus).withHold (c.countReset settled)) := by
  have hr' : (c.idles (c.state.watch bus)).recognisesReset settled = false := by
    simpa only [recognisesReset, idles, State.resetHold_watch] using hr
  have hf : (c.idles (c.state.watch bus)).finish settled = c.idles (c.state.watch bus) := rfl
  rw [edge, latch, drive_of_not_runs h, hf, checkReset_of_not_recognised hr']
  simp only [countReset, idles, State.resetHold_watch]

theorem edge_of_runs (hw : c.state.WellFormed) (h : c.runs bus = true)
    (hr : c.recognisesReset settled = false) :
    c.edge bus settled =
      c.completes (((c.state.watch bus).cycle c.config.policy settled).withHold
        (c.countReset settled)) := by
  have hf : (c.starts (c.state.watch bus)).finish settled =
      c.completes ((c.state.watch bus).cycle c.config.policy settled) := rfl
  have hr' : (c.completes ((c.state.watch bus).cycle c.config.policy settled)).recognisesReset
      settled = false := by
    simpa only [recognisesReset, completes, State.resetHold_cycle, State.resetHold_watch] using hr
  rw [edge, latch, drive_of_runs hw h, hf, checkReset_of_not_recognised hr']
  simp only [countReset, completes, State.resetHold_cycle, State.resetHold_watch]

end Cpu

end Cmos6502
