import Cmos6502.State.Step

namespace Cmos6502

/-- Another place in a sequence and another view of the input lines. Micro-ops
neither read nor write these fields. -/
def State.reframe (s : State) (sequence : Sequence) (step : Nat) (requests : Requests)
    (hold : Byte) : State :=
  { s with sequence := sequence, step := step, requests := requests, resetHold := hold }

namespace MicroOp

variable (op : MicroOp) (s : State) (v : Byte)

theorem complete_reframe (q : Sequence) (k : Nat) (r : Requests) (hold : Byte) :
    op.complete (s.reframe q k r hold) v = (op.complete s v).reframe q k r hold := by
  cases op with
  | branchTaken =>
    unfold complete State.takeBranch
    rw [apply_ite (fun t : State => t.reframe q k r hold)]
    rfl
  | _ => rfl

theorem transfer_reframe (q : Sequence) (k : Nat) (r : Requests) (hold : Byte) :
    op.transfer (s.reframe q k r hold) = op.transfer s := by
  cases op <;> rfl

theorem passedOver_reframe (q : Sequence) (k : Nat) (r : Requests) (hold : Byte) :
    op.passedOver (s.reframe q k r hold) = op.passedOver s := by
  cases op <;> rfl

theorem complete_own_frame :
    op.complete s v =
      (op.complete s v).reframe s.sequence s.step s.requests s.resetHold :=
  complete_reframe op s v s.sequence s.step s.requests s.resetHold

@[simp] theorem sequence_complete : (op.complete s v).sequence = s.sequence := by
  rw [complete_own_frame]
  rfl

@[simp] theorem step_complete : (op.complete s v).step = s.step := by
  rw [complete_own_frame]
  rfl

@[simp] theorem requests_complete : (op.complete s v).requests = s.requests := by
  rw [complete_own_frame]
  rfl

@[simp] theorem resetHold_complete : (op.complete s v).resetHold = s.resetHold := by
  rw [complete_own_frame]
  rfl

@[simp] theorem instruction_complete : (op.complete s v).instruction = s.instruction := by
  cases op with
  | branchTaken =>
    simp only [complete, State.takeBranch]
    split <;> rfl
  | _ => rfl

@[simp] theorem mode_complete : (op.complete s v).mode = s.mode := by
  simp only [State.mode, sequence_complete, instruction_complete]

theorem suspended_complete (h : op ≠ .executeImplied) :
    (op.complete s v).paused = s.paused ∧ (op.complete s v).stopped = s.stopped := by
  cases op with
  | executeImplied => exact absurd rfl h
  | branchTaken =>
    simp only [complete, State.takeBranch]
    split <;> exact ⟨rfl, rfl⟩
  | _ => exact ⟨rfl, rfl⟩

end MicroOp

end Cmos6502
