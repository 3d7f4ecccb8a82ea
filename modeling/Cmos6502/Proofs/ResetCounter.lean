import Cmos6502.Proofs.Waveform

namespace Cmos6502

namespace State

variable (s : State) (hold : Byte)

theorem withHold_eq_reframe :
    s.withHold hold = s.reframe s.sequence s.step s.requests hold := rfl

@[simp] theorem transfer_withHold (op : MicroOp) :
    op.transfer (s.withHold hold) = op.transfer s := by
  rw [withHold_eq_reframe, MicroOp.transfer_reframe]

@[simp] theorem passedOver_withHold (op : MicroOp) :
    op.passedOver (s.withHold hold) = op.passedOver s := by
  rw [withHold_eq_reframe, MicroOp.passedOver_reframe]

theorem complete_withHold (op : MicroOp) (v : Byte) :
    op.complete (s.withHold hold) v = (op.complete s v).withHold hold := by
  rw [withHold_eq_reframe, MicroOp.complete_reframe, MicroOp.complete_own_frame op s v]
  rfl

theorem executed_withHold (policy : Policy) (op : MicroOp) (v : Byte) :
    (s.withHold hold).executed policy op v = (s.executed policy op v).withHold hold := by
  simp only [executed, complete_withHold]
  split <;> rfl

theorem advance_withHold : (s.withHold hold).advance = s.advance.withHold hold := by
  have hr : (s.withHold hold).remaining = s.remaining := by
    simp only [remaining, passedOver_withHold]
    rfl
  cases h : s.remaining with
  | nil =>
    rw [advance_of_remaining_nil s h, advance_of_remaining_nil _ (hr.trans h), boundary_withHold]
  | cons op rest =>
    rw [advance_of_remaining_cons s h, advance_of_remaining_cons _ (hr.trans h)]
    rfl

theorem settle_withHold : (s.withHold hold).settle = s.settle.withHold hold := by
  have hop : (s.withHold hold).currentOp = s.currentOp := rfl
  rw [settle, settle, hop, passedOver_withHold, advance_withHold]
  split <;> rfl

theorem watch_withHold (bus : Bus) :
    (s.withHold hold).watch bus = (s.watch bus).withHold hold := by
  by_cases hs : s.stopped = true
  · have hs' : (s.withHold hold).stopped = true := hs
    rw [watch, watch, if_pos hs, if_pos hs']
  · have hs' : ¬ (s.withHold hold).stopped = true := hs
    have hw : ((s.withHold hold).sample bus).wakes = (s.sample bus).wakes := rfl
    rw [watch, watch, if_neg hs, if_neg hs', wake, wake, hw]
    split
    · exact boundary_withHold { s.sample bus with paused := false } hold
    · rfl

end State

namespace Cpu

def withHold (c : Cpu) (hold : Byte) : Cpu := { c with state := c.state.withHold hold }

variable (c : Cpu) (hold : Byte) (bus settled : Bus)

theorem drive_withHold :
    (c.withHold hold).drive bus = ((c.drive bus).1.withHold hold, (c.drive bus).2) := by
  have hw : (c.withHold hold).state.watch bus = (c.state.watch bus).withHold hold :=
    State.watch_withHold c.state hold bus
  have hs (s : State) : (s.withHold hold).suspended = s.suspended := rfl
  have hop (s : State) : (s.withHold hold).currentOp = s.currentOp := rfl
  have hl (s : State) : (s.withHold hold).locksMemory = s.locksMemory := rfl
  simp only [drive, hw, hs]
  split
  · rfl
  · split
    · simp only [begin, State.settle_withHold, hop, hl, State.transfer_withHold]
      rfl
    · rfl

theorem finish_withHold : (c.withHold hold).finish settled = (c.finish settled).withHold hold := by
  have hf : (c.withHold hold).inFlight = c.inFlight := rfl
  cases h : c.inFlight with
  | none => simp only [finish, hf, h]
  | some p =>
    simp only [finish, hf, h]
    simp only [withHold, State.finish, State.executed_withHold, State.advance_withHold]

@[simp] theorem config_drive : (c.drive bus).1.config = c.config := by
  simp only [drive]
  split
  · rfl
  · split <;> rfl

@[simp] theorem config_finish : (c.finish settled).config = c.config := by
  simp only [finish]
  split <;> rfl

@[simp] theorem resetHold_drive : (c.drive bus).1.state.resetHold = c.state.resetHold := by
  have h := drive_withHold c c.state.resetHold bus
  have hc : c.withHold c.state.resetHold = c := rfl
  rw [hc] at h
  rw [h]
  rfl

@[simp] theorem resetHold_finish : (c.finish settled).state.resetHold = c.state.resetHold := by
  have h := finish_withHold c c.state.resetHold settled
  have hc : c.withHold c.state.resetHold = c := rfl
  rw [hc] at h
  rw [h]
  rfl

theorem inFlight_finish : (c.finish settled).inFlight = none := by
  simp only [finish]
  split
  · assumption
  · rfl

/-- What both halves of an edge make of the processor before reset is looked at. -/
def working : Cpu := (c.drive bus).1.finish settled

variable {c bus settled}

theorem edge_of_not_recognised (h : c.recognisesReset settled = false) :
    c.edge bus settled = (c.working bus settled).withHold (c.countReset settled) := by
  have hr : (c.working bus settled).recognisesReset settled = false := by
    simpa only [recognisesReset, working, config_finish, config_drive, resetHold_finish,
      resetHold_drive] using h
  rw [edge, latch, ← working, checkReset_of_not_recognised hr]
  simp only [countReset, working, resetHold_finish, resetHold_drive]
  rfl

theorem edge_of_recognised (h : c.recognisesReset settled = true) :
    c.edge bus settled =
      (c.working bus settled).idles
        (resetState (c.working bus settled).state (c.countReset settled)) := by
  simp only [recognisesReset, Bool.and_eq_true, Bool.not_eq_true', decide_eq_false_iff_not] at h
  obtain ⟨hr, hl⟩ := h
  rw [edge, latch, ← working, checkReset, if_neg (by simp [hr])]
  simp only [working, idles, config_finish, config_drive, resetHold_finish, resetHold_drive]
  rw [if_neg hl, countReset, if_pos hr]

theorem inFlight_edge : (c.edge bus settled).inFlight = none := by
  cases h : c.recognisesReset settled with
  | false =>
    rw [edge_of_not_recognised h]
    exact inFlight_finish _ _
  | true =>
    rw [edge_of_recognised h]
    rfl

theorem toNat_held (hold : Byte) : (held hold).toNat = min 255 (hold.toNat + 1) := by
  have hlt := hold.isLt
  rw [held]
  split
  · next h =>
    subst h
    rfl
  · next h =>
    have hne : hold.toNat ≠ 255 := fun he => h (BitVec.eq_of_toNat_eq he)
    rw [BitVec.toNat_add]
    change (hold.toNat + 1) % 256 = _
    omega

theorem toNat_resetThreshold (config : Config) :
    config.resetThreshold.toNat = max 1 config.resetHoldEdges.toNat := by
  rw [Config.resetThreshold]
  split
  · next h =>
    rw [h]
    rfl
  · next h =>
    have hne : config.resetHoldEdges.toNat ≠ 0 := fun he => h (BitVec.eq_of_toNat_eq he)
    omega

/-- The counter stops at its largest value, and no threshold lies beyond it. -/
theorem recognisesReset_iff :
    c.recognisesReset settled = true ↔
      settled.reset.asserted = true ∧
        max 1 c.config.resetHoldEdges.toNat ≤ c.state.resetHold.toNat + 1 := by
  have hlt := c.config.resetHoldEdges.isLt
  rw [recognisesReset, Bool.and_eq_true, Bool.not_eq_true', decide_eq_false_iff_not,
    BitVec.lt_def, toNat_held, toNat_resetThreshold]
  refine and_congr_right fun _ => ?_
  omega

theorem toNat_countReset :
    (c.countReset settled).toNat =
      if settled.reset.asserted then min 255 (c.state.resetHold.toNat + 1) else 0 := by
  rw [countReset]
  split
  · exact toNat_held _
  · rfl

theorem config_edge : (c.edge bus settled).config = c.config := by
  cases h : c.recognisesReset settled with
  | false =>
    rw [edge_of_not_recognised h]
    exact (config_finish _ _).trans (config_drive _ _)
  | true =>
    rw [edge_of_recognised h]
    exact (config_finish _ _).trans (config_drive _ _)

theorem resetHold_edge : (c.edge bus settled).state.resetHold = c.countReset settled := by
  cases h : c.recognisesReset settled with
  | false =>
    rw [edge_of_not_recognised h]
    rfl
  | true =>
    rw [edge_of_recognised h]
    rfl

end Cpu

namespace Computer

/-- For how many edges in a row reset has been held when edge `n` begins, those
included that the processor had counted at the start. -/
def heldFor (m : Computer) (w : Nat → Inputs) : Nat → Nat
  | 0 => m.cpu.state.resetHold.toNat
  | n + 1 => if (w n).reset then heldFor m w n + 1 else 0

theorem reset_settled (m : Computer) (i : Inputs) :
    (m.under i).settled.reset.asserted = i.reset := by
  have h := congrArg Inputs.reset (inputs_settled (m.under i))
  rw [bus_under, Bus.inputs_withInputs] at h
  exact h

variable (m : Computer) (w : Nat → Inputs)

theorem cpu_follow_succ (n : Nat) :
    (m.follow w (n + 1)).cpu =
      (m.follow w n).cpu.edge ((m.follow w n).bus.withInputs (w n))
        ((m.follow w n).under (w n)).settled := by
  rw [follow_succ, cpu_edge, cpu_under, bus_under]

theorem config_follow (n : Nat) : (m.follow w n).cpu.config = m.cpu.config := by
  induction n with
  | zero => rfl
  | succ n ih =>
    rw [cpu_follow_succ, Cpu.config_edge, ih]

theorem toNat_resetHold_follow (n : Nat) :
    (m.follow w n).cpu.state.resetHold.toNat = min 255 (m.heldFor w n) := by
  induction n with
  | zero =>
    have hlt := m.cpu.state.resetHold.isLt
    change m.cpu.state.resetHold.toNat = min 255 m.cpu.state.resetHold.toNat
    omega
  | succ n ih =>
    rw [cpu_follow_succ, Cpu.resetHold_edge, Cpu.toNat_countReset, reset_settled, ih, heldFor]
    cases (w n).reset with
    | false => rfl
    | true =>
      simp only [if_true]
      omega

theorem heldFor_of_low {n : Nat} (h : ∀ k < n, (w k).reset = true) :
    m.heldFor w n = m.cpu.state.resetHold.toNat + n := by
  induction n with
  | zero => rfl
  | succ n ih =>
    rw [heldFor, if_pos (h n (Nat.lt_succ_self n)), ih fun k hk => h k (Nat.lt_succ_of_lt hk)]
    rfl

/-- Reset is recognised on the very edges that end a long enough hold. -/
theorem recognisesReset_follow (n : Nat) :
    (m.follow w n).cpu.recognisesReset ((m.follow w n).under (w n)).settled = true ↔
      max 1 m.cpu.config.resetHoldEdges.toNat ≤ m.heldFor w (n + 1) := by
  have hlt := m.cpu.config.resetHoldEdges.isLt
  rw [Cpu.recognisesReset_iff, reset_settled, config_follow, toNat_resetHold_follow, heldFor]
  cases (w n).reset with
  | false =>
    simp only [Bool.false_eq_true, false_and, if_false, false_iff]
    omega
  | true =>
    simp only [true_and, if_true]
    omega

theorem not_recognised_follow {n : Nat}
    (h : m.heldFor w (n + 1) < max 1 m.cpu.config.resetHoldEdges.toNat) :
    (m.follow w n).cpu.recognisesReset ((m.follow w n).under (w n)).settled = false := by
  rw [Bool.eq_false_iff, ne_eq, recognisesReset_follow]
  exact Nat.not_le.2 h

theorem cpu_follow_of_recognised {n : Nat}
    (h : max 1 m.cpu.config.resetHoldEdges.toNat ≤ m.heldFor w (n + 1)) :
    (m.follow w (n + 1)).cpu.inFlight = none ∧
    ∃ pc nmiHeld hold, (m.follow w (n + 1)).cpu.state =
      { State.powerOn with
        regs.pc := pc
        requests.nmiHeld := nmiHeld
        resetHold := hold } := by
  have hr := (recognisesReset_follow m w n).2 h
  rw [cpu_follow_succ, Cpu.edge_of_recognised hr]
  exact ⟨rfl, _, _, _, rfl⟩

end Computer

end Cmos6502
