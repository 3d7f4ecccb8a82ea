import Cmos6502.Proofs.Suspension

namespace Cmos6502

namespace Report

/-- What a processor tells of its work: nothing of reset, and of the entry of a non-maskable
interrupt only if one is pending. -/
def Warranted (pending : Prop) : Report → Prop
  | entered .nmi _ _ => pending
  | reset _ _ => False
  | _ => True

theorem Warranted.mono {p q : Prop} (hpq : p → q) {r : Report} (h : r.Warranted p) :
    r.Warranted q := by
  cases r with
  | entered sequence pc flags =>
    cases sequence with
    | nmi => exact hpq h
    | instruction | irq | reset => exact h
  | _ => exact h

def isReset : Report → Bool
  | reset _ _ => true
  | _ => false

theorem Warranted.not_isReset {p : Prop} {r : Report} (h : r.Warranted p) : ¬ r.isReset := by
  cases r with
  | reset => exact h.elim
  | _ => exact Bool.false_ne_true

end Report

namespace State

variable {s : State} {r : Report}

theorem warranted_boundary (h : r ∈ s.boundaryReports) : r.Warranted (s.requests.nmi = true) := by
  rw [boundaryReports] at h
  split at h
  · cases h
  · obtain h | h := List.mem_append.1 h
    · split at h
      · obtain rfl := List.mem_singleton.1 h
        exact trivial
      · cases h
    · obtain rfl := List.mem_singleton.1 h
      cases hq : s.next with
      | nmi => exact (next_eq_nmi s).1 hq
      | instruction | irq | reset => exact trivial

theorem warranted_advance (h : r ∈ s.advanceReports) : r.Warranted (s.requests.nmi = true) := by
  rw [advanceReports] at h
  split at h
  · exact warranted_boundary h
  · cases h

theorem warranted_settle (h : r ∈ s.settleReports) : r.Warranted (s.requests.nmi = true) := by
  rw [settleReports] at h
  split at h
  · exact warranted_advance h
  · cases h

theorem warranted_wake (h : r ∈ s.wakeReports) : r.Warranted (s.requests.nmi = true) := by
  rw [wakeReports] at h
  split at h
  · obtain rfl | h := List.mem_cons.1 h
    · exact trivial
    · exact warranted_boundary (s := { s with paused := false }) h
  · cases h

theorem mem_executedReports {policy : Policy} {op : MicroOp} {v : Byte}
    (h : r ∈ s.executedReports policy op v) :
    r = .waiting s.regs.pc ∨ r = .stopping s.regs.pc ∨
      r = .fetched (.decode policy v) (op.complete s v).regs := by
  rw [executedReports, performReports] at h
  grind

theorem warranted_finish {policy : Policy} {op : MicroOp} {v : Byte}
    (h : r ∈ s.finishReports policy op v) : r.Warranted (s.requests.nmi = true) := by
  obtain h | h := List.mem_append.1 h
  · obtain rfl | rfl | rfl := mem_executedReports h <;> exact trivial
  · rw [← requests_executed s policy op v]
    exact warranted_advance h

theorem nmi_of_advance (h : s.advance.requests.nmi = true) : s.requests.nmi = true := by
  obtain ⟨-, ha⟩ | ⟨_, _, _, -, -, -, ha⟩ := advance_cases s
  · rw [ha, nmi_boundary] at h
    cases h
  · rw [ha] at h
    exact h

theorem nmi_of_settle (h : s.settle.requests.nmi = true) : s.requests.nmi = true := by
  rw [settle] at h
  split at h
  · exact nmi_of_advance h
  · exact h

theorem nmi_of_wake (h : s.wake.requests.nmi = true) : s.requests.nmi = true := by
  rw [wake] at h
  split at h
  · rw [nmi_boundary] at h
    cases h
  · exact h

end State

namespace Cpu

variable {c : Cpu} {bus settled : Bus} {r : Report}

def nmiPending (c : Cpu) (bus : Bus) : Bool := c.state.requests.nmi || c.seesFall bus

theorem nmi_sample (hs : c.state.stopped = false) :
    (c.state.sample bus).requests.nmi = c.nmiPending bus := by
  rw [nmiPending, seesFall, hs]
  rfl

theorem nmiPending_of_watch (h : (c.state.watch bus).requests.nmi = true) :
    c.nmiPending bus = true := by
  rw [State.watch] at h
  split at h
  · exact Bool.or_eq_true_iff.2 (.inl h)
  · next hs =>
    rw [← nmi_sample (Bool.eq_false_iff.2 hs)]
    exact State.nmi_of_wake h

theorem nmiPending_of_drive (h : (c.drive bus).1.state.requests.nmi = true) :
    c.nmiPending bus = true := by
  apply nmiPending_of_watch
  rw [drive] at h
  split at h
  · exact h
  · split at h
    · exact State.nmi_of_settle h
    · exact h

theorem warranted_drive (h : r ∈ c.driveReports bus) : r.Warranted (c.nmiPending bus = true) := by
  rw [driveReports] at h
  split at h
  · cases h
  · next hs =>
    obtain h | h := List.mem_append.1 h
    · rw [← nmi_sample (Bool.eq_false_iff.2 hs)]
      exact State.warranted_wake h
    · split at h
      · exact (State.warranted_settle h).mono nmiPending_of_watch
      · cases h

theorem warranted_cycle (h : r ∈ (c.drive bus).1.finishReports settled) :
    r.Warranted (c.nmiPending bus = true) := by
  rw [finishReports] at h
  split at h
  · cases h
  · exact (State.warranted_finish h).mono nmiPending_of_drive

theorem isReset_of_mem_resetReports (h : r ∈ c.resetReports bus) : r.isReset = true := by
  rw [resetReports] at h
  split at h
  · obtain rfl := List.mem_singleton.1 h
    rfl
  · cases h

theorem warranted_edge {e : Bus × Bus} (h : r ∈ c.edgeReports e) :
    r.isReset = true ∨ r.Warranted (c.nmiPending e.1 = true) := by
  obtain h | h := List.mem_append.1 h
  · exact .inr (warranted_drive h)
  · obtain h | h := List.mem_append.1 h
    · exact .inr (warranted_cycle h)
    · exact .inl (isReset_of_mem_resetReports h)

end Cpu

end Cmos6502
