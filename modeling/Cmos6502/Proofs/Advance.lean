import Cmos6502.Proofs.Frame
import Mathlib.Data.List.TakeWhile

namespace Cmos6502.State

variable (s : State)

theorem next_eq_nmi : s.next = .nmi ↔ s.requests.nmi = true := by
  rw [next]
  cases s.requests.nmi <;> simp
  split <;> simp

theorem next_eq_instruction :
    s.next = .instruction ↔
      s.requests.nmi = false ∧ (s.requests.irq && !s.regs.p.interruptDisable) = false := by
  rw [next]
  cases s.requests.nmi <;> simp

theorem next_ne_reset : s.next ≠ .reset := by
  rw [next]
  split
  · decide
  · split <;> decide

theorem boundary_eq :
    s.boundary =
      { s with
        sequence := s.next
        step := 0
        latches := .clear
        requests := { s.requests with nmi := false }
        paused := s.paused && decide (s.next = .instruction) } := by
  have clear (h : s.requests.nmi = false) : s.requests = { s.requests with nmi := false } := by
    rw [← h]
  cases hn : s.next with
  | instruction =>
    have hr := clear ((next_eq_instruction s).1 hn).1
    simp only [boundary, hn, restart, decide_true, Bool.and_true, ← hr]
  | nmi => simp [boundary, hn, restart]
  | irq =>
    have hr : s.requests.nmi = false := by
      cases h : s.requests.nmi with
      | false => rfl
      | true => simp [(next_eq_nmi s).2 h] at hn
    simp [boundary, hn, restart, ← clear hr]
  | reset => exact absurd hn (next_ne_reset s)

@[simp] theorem step_boundary : s.boundary.step = 0 := by rw [boundary_eq]

@[simp] theorem latches_boundary : s.boundary.latches = .clear := by rw [boundary_eq]

@[simp] theorem sequence_boundary : s.boundary.sequence = s.next := by rw [boundary_eq]

@[simp] theorem regs_boundary : s.boundary.regs = s.regs := by rw [boundary_eq]

@[simp] theorem instruction_boundary : s.boundary.instruction = s.instruction := by
  rw [boundary_eq]

@[simp] theorem stopped_boundary : s.boundary.stopped = s.stopped := by rw [boundary_eq]

@[simp] theorem nmi_boundary : s.boundary.requests.nmi = false := by rw [boundary_eq]

theorem paused_boundary :
    s.boundary.paused = (s.paused && decide (s.next = .instruction)) := by rw [boundary_eq]

def atStep (k : Nat) : State := { s with step := k }

theorem atStep_eq_reframe (k : Nat) :
    s.atStep k = s.reframe s.sequence k s.requests s.resetHold := rfl

@[simp] theorem passedOver_atStep (op : MicroOp) (k : Nat) :
    op.passedOver (s.atStep k) = op.passedOver s := by
  rw [atStep_eq_reframe, MicroOp.passedOver_reframe]

theorem currentOp_of_step_zero (h : s.step = 0) :
    s.currentOp = if s.sequence = .instruction then .fetchOpcode else .dummyProgram := by
  rw [currentOp, h]

theorem passedOver_currentOp_of_step_zero (h : s.step = 0) :
    s.currentOp.passedOver s = false := by
  rw [currentOp_of_step_zero s h]
  split <;> rfl

theorem currentOp_succ {k : Nat} (h : s.step = k + 1) :
    s.currentOp = s.mode.microOps.getD k .dummyProgram := by
  rw [currentOp, h]

theorem currentOp_eq_fetchOpcode :
    s.currentOp = .fetchOpcode ↔ s.step = 0 ∧ s.sequence = .instruction := by
  cases hk : s.step with
  | zero =>
    rw [currentOp_of_step_zero s hk]
    simp
  | succ k =>
    rw [currentOp_succ s hk, List.getD_eq_getElem?_getD]
    have hn : ∀ o ∈ s.mode.microOps[k]?, o ≠ .fetchOpcode := by
      rintro o ho rfl
      exact Mode.fetchOpcode_notMem_microOps s.mode (List.mem_of_getElem? ho)
    cases ho : s.mode.microOps[k]? with
    | none => simp
    | some o => simpa using hn o ho

theorem currentOp_mem_microOps {k : Nat} (h : s.step = k + 1) (hk : s.step < s.mode.cycles) :
    s.mode.microOps[k]? = some s.currentOp := by
  have hl : k < s.mode.microOps.length := by
    simp only [Mode.cycles] at hk
    omega
  simp [currentOp_succ s h, hl]

theorem advance_of_remaining_nil (h : s.remaining = []) : s.advance = s.boundary := by
  rw [advance, h]

theorem advance_of_remaining_cons {op : MicroOp} {rest : List MicroOp}
    (h : s.remaining = op :: rest) :
    s.advance = s.atStep (s.mode.cycles - (rest.length + 1)) := by
  rw [advance, h]
  rfl

/-- All that an advance can do: it ends the sequence when every micro-op left is
passed over, and else it stops at the first that is not. -/
theorem advance_cases :
    ((∀ op ∈ s.mode.microOps.drop s.step, op.passedOver s = true) ∧ s.advance = s.boundary) ∨
    ∃ skipped op rest,
      s.mode.microOps.drop s.step = skipped ++ op :: rest ∧
      (∀ o ∈ skipped, o.passedOver s = true) ∧ op.passedOver s = false ∧
      s.advance = s.atStep (s.step + skipped.length + 1) := by
  let left := s.mode.microOps.drop s.step
  cases hr : s.remaining with
  | nil => exact .inl ⟨List.dropWhile_eq_nil_iff.1 hr, advance_of_remaining_nil s hr⟩
  | cons op rest =>
    have hd : left.dropWhile (·.passedOver s) = op :: rest := hr
    have hs : left.takeWhile (·.passedOver s) ++ op :: rest = left := by
      rw [← hd, List.takeWhile_append_dropWhile]
    have hp := List.head_dropWhile_not (·.passedOver s) (l := left)
      (by rw [hd]; exact List.cons_ne_nil op rest)
    simp only [hd, List.head_cons] at hp
    refine .inr ⟨left.takeWhile (·.passedOver s), op, rest, hs.symm, ?_, hp, ?_⟩
    · exact fun o ho => List.mem_takeWhile_imp (p := fun o : MicroOp => o.passedOver s) ho
    · have hl := congrArg List.length hs
      rw [List.length_append, List.length_cons, List.length_drop] at hl
      rw [advance_of_remaining_cons s hr]
      congr 1
      simp only [Mode.cycles]
      omega

/-- One move of the step counter, onto a micro-op that may turn out to cost no
cycle. -/
def nudge : State := if s.step + 1 < s.mode.cycles then s.atStep (s.step + 1) else s.boundary

/-- Where a loop comes to rest that nudges for as long as the current micro-op is
passed over. -/
inductive Settles : State → State → Prop
  | rest {s : State} : s.currentOp.passedOver s = false → Settles s s
  | move {s t : State} : s.currentOp.passedOver s = true → Settles s.nudge t → Settles s t

theorem settles_boundary : Settles s.boundary s.boundary :=
  .rest (passedOver_currentOp_of_step_zero _ (step_boundary s))

section Ahead

variable {s} (h : s.step < s.mode.microOps.length)
include h

theorem currentOp_atStep_succ :
    (s.atStep (s.step + 1)).currentOp = s.mode.microOps[s.step] := by
  rw [currentOp_succ (s.atStep (s.step + 1)) rfl]
  exact (List.getElem_eq_getD (h := h) MicroOp.dummyProgram).symm

theorem nudge_of_lt : s.nudge = s.atStep (s.step + 1) :=
  if_pos (Nat.succ_lt_succ h)

theorem advance_of_passedOver (hp : s.mode.microOps[s.step].passedOver s = true) :
    s.advance = (s.atStep (s.step + 1)).advance := by
  have hr : s.remaining = (s.atStep (s.step + 1)).remaining := by
    simp only [remaining, passedOver_atStep]
    rw [List.drop_eq_getElem_cons h,
      List.dropWhile_cons_of_pos (p := fun o : MicroOp => o.passedOver s) hp]
    rfl
  rw [advance, hr]
  rfl

theorem advance_of_not_passedOver (hp : s.mode.microOps[s.step].passedOver s = false) :
    s.advance = s.atStep (s.step + 1) := by
  have hr : s.remaining = s.mode.microOps[s.step] :: s.mode.microOps.drop (s.step + 1) := by
    rw [remaining, List.drop_eq_getElem_cons h, List.dropWhile_cons_of_neg (by simp [hp])]
  rw [advance_of_remaining_cons s hr, List.length_drop]
  congr 1
  simp only [Mode.cycles]
  omega

end Ahead

theorem advance_of_le (h : s.mode.microOps.length ≤ s.step) : s.advance = s.boundary := by
  refine advance_of_remaining_nil s ?_
  rw [remaining, List.drop_eq_nil_of_le h, List.dropWhile_nil]

theorem settles_advance : Settles s.nudge s.advance := by
  induction hn : s.mode.microOps.length - s.step generalizing s with
  | zero =>
    have hl : s.mode.microOps.length ≤ s.step := by omega
    have hb : s.nudge = s.boundary := if_neg (by simp only [Mode.cycles]; omega)
    rw [hb, advance_of_le s hl]
    exact settles_boundary s
  | succ n ih =>
    have hl : s.step < s.mode.microOps.length := by omega
    rw [nudge_of_lt hl]
    cases hp : s.mode.microOps[s.step].passedOver s with
    | false =>
      rw [advance_of_not_passedOver hl hp]
      refine .rest ?_
      rw [currentOp_atStep_succ hl, passedOver_atStep, hp]
    | true =>
      rw [advance_of_passedOver hl hp]
      refine .move ?_ (ih (s.atStep (s.step + 1)) ?_)
      · rw [currentOp_atStep_succ hl, passedOver_atStep, hp]
      · change s.mode.microOps.length - (s.step + 1) = n
        omega

end Cmos6502.State
