import Cmos6502.Proofs.Waveform

namespace Cmos6502

def Requests.after (r : Requests) (i : Inputs) : Requests :=
  ⟨i.irq, r.nmi || (i.nmi && !r.nmiHeld), i.nmi⟩

theorem Mode.microOps_eq_cons (m : Mode) :
    ∃ op rest, m.microOps = op :: rest ∧ ∀ s, op.passedOver s = false := by
  cases m with
  | memory form use => cases form <;> exact ⟨_, _, rfl, fun _ => rfl⟩
  | _ => exact ⟨_, _, rfl, fun _ => rfl⟩

namespace State

variable (s : State)

def withRequests (r : Requests) : State := { s with requests := r }

theorem sample_withInputs (b : Bus) (i : Inputs) :
    s.sample (b.withInputs i) =
      { s with
        regs.p.overflow := s.regs.p.overflow || i.setOverflow
        requests := s.requests.after i } := by
  simp [sample, Bus.withInputs, Requests.after]

theorem watch_of_running {s : State} (h : s.suspended = false) (bus : Bus) :
    s.watch bus = s.sample bus := by
  obtain ⟨hs, hp⟩ := Bool.or_eq_false_iff.1 h
  have hw : (s.sample bus).wakes = false := by
    simp [wakes, sample, hp]
  simp [watch, wake, hs, hw]

variable (r : Requests) (policy : Policy) (op : MicroOp) (v : Byte)

theorem withRequests_eq_reframe :
    s.withRequests r = s.reframe s.sequence s.step r s.resetHold := rfl

@[simp] theorem transfer_withRequests : op.transfer (s.withRequests r) = op.transfer s := by
  rw [withRequests_eq_reframe, MicroOp.transfer_reframe]

@[simp] theorem passedOver_withRequests :
    op.passedOver (s.withRequests r) = op.passedOver s := by
  rw [withRequests_eq_reframe, MicroOp.passedOver_reframe]

theorem complete_withRequests :
    op.complete (s.withRequests r) v = (op.complete s v).withRequests r := by
  rw [withRequests_eq_reframe, MicroOp.complete_reframe, MicroOp.complete_own_frame op s v]
  rfl

theorem executed_withRequests :
    (s.withRequests r).executed policy op v = (s.executed policy op v).withRequests r := by
  simp only [executed, complete_withRequests]
  split <;> rfl

theorem remaining_withRequests : (s.withRequests r).remaining = s.remaining := by
  simp only [remaining, passedOver_withRequests]
  rfl

theorem remaining_of_step_zero (h : s.step = 0) : s.remaining = s.mode.microOps := by
  obtain ⟨op, rest, hm, hp⟩ := s.mode.microOps_eq_cons
  rw [remaining, h, List.drop_zero, hm, List.dropWhile_cons_of_neg (by simp [hp])]

theorem remaining_ne_nil (h : s.step = 0) : s.remaining ≠ [] := by
  rw [remaining_of_step_zero s h]
  exact s.mode.microOps_ne_nil

theorem advance_withRequests :
    (∃ k, s.advance = s.atStep (k + 1) ∧
      (s.withRequests r).advance = (s.withRequests r).atStep (k + 1)) ∨
    (s.step ≠ 0 ∧ s.advance = s.boundary ∧
      (s.withRequests r).advance = (s.withRequests r).boundary) := by
  cases hr : s.remaining with
  | nil =>
    refine .inr ⟨fun h => remaining_ne_nil s h hr, advance_of_remaining_nil s hr, ?_⟩
    exact advance_of_remaining_nil _ (by rw [remaining_withRequests, hr])
  | cons o rest =>
    have hl : rest.length + 1 ≤ s.mode.microOps.length := by
      have h := (List.dropWhile_sublist fun o : MicroOp => o.passedOver s).length_le.trans
        (List.drop_sublist s.step s.mode.microOps).length_le
      rw [← remaining, hr] at h
      exact h
    have hk : s.mode.cycles - (rest.length + 1) =
        s.mode.microOps.length - (rest.length + 1) + 1 := by
      simp only [Mode.cycles]
      omega
    refine .inl ⟨s.mode.microOps.length - (rest.length + 1), ?_, ?_⟩
    · rw [advance_of_remaining_cons s hr, hk]
    · rw [advance_of_remaining_cons _ (by rw [remaining_withRequests, hr])]
      exact congrArg _ hk

/-- What a cycle makes of two states that differ in their requests alone: the
same, up to the end of the sequence. -/
theorem cycle_withRequests (settled settled' : Bus) (hd : settled'.data = settled.data) :
    ∃ t : State, t.requests = s.requests ∧ t.sequence = s.sequence ∧
      ((∃ k, s.cycle policy settled = t.atStep (k + 1) ∧
        (s.withRequests r).cycle policy settled' = (t.withRequests r).atStep (k + 1)) ∨
      (s.step ≠ 0 ∧ s.cycle policy settled = t.boundary ∧
        (s.withRequests r).cycle policy settled' = (t.withRequests r).boundary)) := by
  have hv : Cpu.received (s.currentOp.transfer s) settled' =
      Cpu.received (s.currentOp.transfer s) settled := by
    cases s.currentOp.transfer s with
    | read a => exact hd
    | write a v => rfl
  have hop : (s.withRequests r).currentOp = s.currentOp := rfl
  refine ⟨s.executed policy s.currentOp (Cpu.received (s.currentOp.transfer s) settled),
    requests_executed _ _ _ _, sequence_executed _ _ _ _, ?_⟩
  simp only [cycle, finish, hop, transfer_withRequests, hv, executed_withRequests]
  rw [← step_executed s policy s.currentOp (Cpu.received (s.currentOp.transfer s) settled)]
  exact advance_withRequests _ r

end State

theorem Cpu.runs_of_running {c : Cpu} (hs : c.state.suspended = false) (b : Bus) (i : Inputs) :
    c.runs (b.withInputs i) = i.ready := by
  rw [runs, State.watch_of_running hs]
  change (!c.state.suspended && _) = _
  rw [hs, Bool.not_false, Bool.true_and]
  exact Line.asserted_ofAsserted i.ready

end Cmos6502
