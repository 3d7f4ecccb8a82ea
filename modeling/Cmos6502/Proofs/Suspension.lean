import Cmos6502.Cpu.Report
import Cmos6502.Proofs.CycleCount

namespace Cmos6502

def arbitrated (nmi irq masked : Bool) : Sequence :=
  if nmi then .nmi else if irq && !masked then .irq else .instruction

theorem arbitrated_of_ne {nmi irq masked : Bool} (h : arbitrated nmi irq masked ≠ .instruction) :
    arbitrated nmi irq masked = .nmi ∨ arbitrated nmi irq masked = .irq := by
  revert h
  cases nmi <;> cases irq <;> cases masked <;> decide

namespace State

variable {s : State}

theorem step_watch (h : s.step = 0) (bus : Bus) : (s.watch bus).step = 0 := by
  simp only [watch, wake]
  split
  · exact h
  · split
    · exact step_boundary _
    · exact h

theorem currentOp_ne_of_step_zero (h : s.step = 0) : s.currentOp ≠ .executeImplied := by
  rw [currentOp_of_step_zero s h]
  split <;> exact MicroOp.noConfusion

theorem remaining_perform (hw : s.WellFormed) (hi : s.currentOp = .executeImplied) :
    s.perform.remaining = [] := by
  have hend : s.perform.mode.microOps.length ≤ s.perform.step :=
    (length_le_of_executeImplied hw hi :)
  rw [remaining, List.drop_eq_nil_of_le hend]
  rfl

theorem finish_of_executeImplied (hw : s.WellFormed) (hi : s.currentOp = .executeImplied)
    (policy : Policy) (v : Byte) : s.finish policy s.currentOp v = s.perform.boundary := by
  rw [finish, executed_of_executeImplied hi]
  exact advance_of_remaining_nil s.perform (remaining_perform hw hi)

theorem wakeReports_of_not_wakes (h : s.wakes = false) : s.wakeReports = [] :=
  if_neg (Bool.eq_false_iff.1 h)

theorem perform_wai (hs : s.suspended = false) (hop : s.operation = .implied .wai) :
    s.perform = { s with paused := true } := by
  have hstop : s.stopped = false := (Bool.or_eq_false_iff.1 hs).1
  simp only [perform, hop, hstop, beq_self_eq_true, Bool.or_true]
  rfl

theorem perform_stp (hs : s.suspended = false) (hop : s.operation = .implied .stp) :
    s.perform = { s with stopped := true } := by
  have hpause : s.paused = false := (Bool.or_eq_false_iff.1 hs).2
  simp only [perform, hop, hpause, beq_self_eq_true, Bool.or_true]
  rfl

end State

namespace Cpu

variable {c : Cpu} {e : Bus × Bus} {es : List (Bus × Bus)} {bus : Bus} {op : ImpliedOp}

def choice (c : Cpu) (bus : Bus) : Sequence :=
  arbitrated (c.state.requests.nmi || c.seesFall bus) bus.irq.asserted
    c.state.regs.p.interruptDisable

theorem sample_next (hs : c.state.stopped = false) (bus : Bus) :
    (c.state.sample bus).next = c.choice bus := by
  rw [choice, seesFall, hs]
  rfl

/-- The edge is the last of the implied instruction `op`, on which it does its work. -/
def concludes (c : Cpu) (op : ImpliedOp) (bus : Bus) : Bool :=
  (c.access bus).any (fun p => p.1 == .executeImplied) && c.state.operation == .implied op

theorem concludes_iff (hw : c.state.WellFormed) :
    c.concludes op bus = true ↔ bus.ready.asserted = true ∧ c.state.suspended = false ∧
      c.state.currentOp = .executeImplied ∧ c.state.operation = .implied op := by
  cases hs : c.state.suspended with
  | false =>
    rw [concludes, access_of_running hw hs]
    cases bus.ready.asserted <;> simp
  | true =>
    -- one that wakes on the edge begins with a first cycle, which no instruction ends with
    have hstep : c.state.step = 0 := by
      by_contra hk
      rw [hw.running hk] at hs
      cases hs
    have hne := State.currentOp_ne_of_step_zero (State.step_watch hstep bus)
    cases hrun : c.runs bus with
    | false => simp [concludes, access_of_not_runs hrun]
    | true => simp [concludes, access_of_runs hw hrun, hne]

theorem edge_of_concludes (hw : c.state.WellFormed) (hr : c.recognisesReset e.2 = false)
    (h : c.concludes op e.1 = true) :
    c.edge e.1 e.2 =
      c.completes ((c.state.sample e.1).perform.boundary.withHold (c.countReset e.2)) := by
  obtain ⟨hready, hs, hop, -⟩ := (concludes_iff hw).1 h
  have hw' : (c.state.sample e.1).WellFormed := by
    rw [← State.watch_of_running hs]
    exact hw.watch e.1
  have hfinish := State.finish_of_executeImplied hw' hop c.config.policy
  rw [edge_of_ready hw hs hr hready]
  exact congrArg (fun s => c.completes (State.withHold s _)) (hfinish _)

/-- A property of all edges of a run. -/
def Along (P : Cpu → Bus × Bus → Prop) : Cpu → List (Bus × Bus) → Prop
  | _, [] => True
  | c, e :: es => P c e ∧ Along P (c.edge e.1 e.2) es

def Unreset (c : Cpu) (e : Bus × Bus) : Prop := c.recognisesReset e.2 = false

theorem along_unreset (h : ∀ e ∈ es, e.2.reset.asserted = false) : c.Along Unreset es := by
  induction es generalizing c with
  | nil => exact trivial
  | cons e es ih =>
    obtain ⟨he, hes⟩ := List.forall_mem_cons.1 h
    exact ⟨not_recognised_of_released he, ih hes⟩

def edgeReports (c : Cpu) (e : Bus × Bus) : List Report :=
  c.driveReports e.1 ++ (c.drive e.1).1.latchReports e.2

def reports : Cpu → List (Bus × Bus) → List Report
  | _, [] => []
  | c, e :: es => c.edgeReports e ++ reports (c.edge e.1 e.2) es

/-- On an edge the processor does nothing but let go of its status lines, and tells nothing. -/
structure Idle (c : Cpu) (e : Bus × Bus) : Prop where
  access_eq : c.access e.1 = none
  wires : (c.drive e.1).2 = e.1.releaseStatus
  reports_eq : c.edgeReports e = []

theorem latchReports_drive {settled : Bus} (h : c.recognisesReset settled = false) (bus : Bus) :
    (c.drive bus).1.latchReports settled = (c.drive bus).1.finishReports settled := by
  have hnone : ((c.drive bus).1.finish settled).resetReports settled = [] := by
    apply if_neg
    rintro ⟨hr, hold⟩
    rw [resetHold_finish, resetHold_drive, config_finish, config_drive] at hold
    simp [recognisesReset, hr, hold] at h
  rw [latchReports, hnone, List.append_nil]

theorem driveReports_eq (hw : c.state.WellFormed) (bus : Bus) :
    c.driveReports bus = if c.state.stopped then [] else (c.state.sample bus).wakeReports := by
  have hsettle : (c.state.watch bus).settleReports = [] :=
    if_neg (Bool.eq_false_iff.1 (hw.watch bus).performs)
  simp only [driveReports, hsettle, ite_self, List.append_nil]

theorem driveReports_of_running (hw : c.state.WellFormed) (hs : c.state.suspended = false)
    (bus : Bus) : c.driveReports bus = [] := by
  have hpause : (c.state.sample bus).paused = false := (Bool.or_eq_false_iff.1 hs).2
  have hwake : (c.state.sample bus).wakes = false := by rw [State.wakes, hpause, Bool.false_and]
  rw [driveReports_eq hw, State.wakeReports_of_not_wakes hwake, ite_self]

theorem edgeReports_of_concludes (hw : c.state.WellFormed) (hr : c.recognisesReset e.2 = false)
    (h : c.concludes op e.1 = true) :
    let s := c.state.sample e.1
    c.edgeReports e = s.performReports ++ s.perform.boundaryReports := by
  intro s
  obtain ⟨hready, hs, hop, -⟩ := (concludes_iff hw).1 h
  have hwatch : c.state.watch e.1 = s := State.watch_of_running hs e.1
  have hs' : s.WellFormed := by
    rw [← hwatch]
    exact hw.watch e.1
  have hadvance : s.perform.advanceReports = s.perform.boundaryReports := by
    rw [State.advanceReports, State.remaining_perform hs' hop]
    rfl
  have hrun : c.runs e.1 = true := (runs_eq_ready hs e.1).trans hready
  have hcur : s.currentOp = .executeImplied := hop
  rw [edgeReports, driveReports_of_running hw hs, latchReports_drive hr, drive_of_runs hw hrun,
    hwatch, List.nil_append, ← hadvance, starts, hcur]
  rfl

theorem idle_of_suspended (hr : c.recognisesReset e.2 = false)
    (h : (c.state.watch e.1).suspended = true) (hwake : c.state.stopped = false →
      (c.state.sample e.1).wakes = false) : c.Idle e := by
  have hrun : c.runs e.1 = false := by rw [runs, h]; rfl
  have hdrive := drive_of_not_runs hrun
  rw [if_pos h] at hdrive
  have hlatch : (c.drive e.1).1.latchReports e.2 = [] := by
    rw [latchReports_drive hr, hdrive]
    rfl
  have hreports : c.driveReports e.1 = [] := by
    simp only [driveReports, h]
    split
    · rfl
    · next hs => rw [State.wakeReports_of_not_wakes (hwake (Bool.eq_false_iff.2 hs))]; rfl
  exact {
    access_eq := access_of_not_runs hrun
    wires := congrArg Prod.snd hdrive
    reports_eq := by rw [edgeReports, hreports, hlatch]; rfl }

/-- The processor has fetched an instruction that suspends it, and has yet to carry it
out. -/
structure Within (c : Cpu) (op : ImpliedOp) (r : Registers) : Prop where
  step_ne : c.state.step ≠ 0
  sequence : c.state.sequence = .instruction
  mode : c.state.instruction.mode = .halt
  operation : c.state.operation = .implied op
  pc : c.state.regs.pc = r.pc + 1
  masked : c.state.regs.p.interruptDisable = r.p.interruptDisable

variable {r : Registers}

theorem Within.edge (h : c.Within op r) (hw : c.state.WellFormed)
    (hr : c.recognisesReset e.2 = false) :
    c.returns e = true ∧ c.concludes op e.1 = true ∨
      c.returns e = false ∧ (c.edge e.1 e.2).Within op r := by
  have hs : c.state.suspended = false := hw.running h.step_ne
  have hmode : c.state.mode = .halt := by
    rw [State.mode, h.sequence]
    exact h.mode
  have hops : ∀ o ∈ c.state.mode.microOps, o.optional = false := by
    rw [hmode]
    decide
  cases hready : e.1.ready.asserted with
  | false =>
    right
    rw [returns, edge_of_held hs hr hready]
    refine ⟨?_, { h with }⟩
    exact Bool.and_eq_false_imp.2 fun _ => beq_eq_false_iff_ne.2 h.step_ne
  | true =>
    have hlt : c.state.step < 3 := by
      have := hw.step_lt
      rwa [hmode] at this
    have hcases : c.state.step = 1 ∨ c.state.step = 2 := by
      have := h.step_ne
      omega
    obtain hk | hk := hcases
    · right
      have hop : c.state.currentOp = .dummyProgram := by
        rw [State.currentOp, hk, hmode]
        rfl
      have hlen : (c.state.sample e.1).step < (c.state.sample e.1).mode.microOps.length := by
        change c.state.step < c.state.mode.microOps.length
        rw [hmode, hk]
        decide
      have hnext : (c.state.sample e.1).advance = (c.state.sample e.1).atStep (c.state.step + 1) := by
        apply State.advance_of_not_passedOver hlen
        apply MicroOp.passedOver_of_not_optional
        exact hops _ (List.getElem_mem hlen)
      have hedge : c.edge e.1 e.2 = c.completes
          (((c.state.sample e.1).atStep (c.state.step + 1)).withHold (c.countReset e.2)) := by
        rw [edge_of_ready hw hs hr hready, hop, ← hnext]
        rfl
      rw [returns, hedge]
      exact ⟨Bool.and_eq_false_imp.2 fun _ => rfl, { h with step_ne := Nat.succ_ne_zero _ }⟩
    · left
      have hop : c.state.currentOp = .executeImplied := by
        rw [State.currentOp, hk, hmode]
        rfl
      have hconc : c.concludes op e.1 = true :=
        (concludes_iff hw).2 ⟨hready, hs, hop, h.operation⟩
      refine ⟨?_, hconc⟩
      rw [returns, edge_of_concludes hw hr hconc, hk]
      exact beq_iff_eq.2 (State.step_boundary _)

theorem Within.ends (h : c.Within op r) (hc : c.Reachable) (hspan : c.Spans es) :
    ∃ es' e, es = es' ++ [e] ∧ (c.after es').Within op r ∧
      (c.after es').concludes op e.1 = true ∧ (c.after es').recognisesReset e.2 = false := by
  induction es generalizing c with
  | nil => exact hspan.elim
  | cons e es ih =>
    have hr : c.recognisesReset e.2 = false := hspan.1
    obtain ⟨hret, hconc⟩ | ⟨hret, hnext⟩ := h.edge hc.wellFormed.state hr
    · obtain ⟨-, rfl⟩ := (spans_cons_of_returns hret).1 hspan
      exact ⟨[], e, rfl, h, hconc, hr⟩
    · obtain ⟨-, hspan'⟩ := (spans_cons hret).1 hspan
      obtain ⟨es', e', rfl, h'⟩ := ih hnext (hc.edge e.1 e.2) hspan'
      exact ⟨e :: es', e', rfl, h'⟩

theorem Spans.concludes (h : c.Spans es) (hc : c.Reachable) (hs : c.state.suspended = false)
    (h0 : c.state.step = 0) (hq : c.state.sequence = .instruction) {asked : Bool}
    {opcode : Byte} (hheard : heard (beats asked es) 0 = opcode)
    (hbound : Opcode.bound opcode = some (.implied op, .halt)) :
    ∃ es' e, es = es' ++ [e] ∧ (c.after es').Within op c.state.regs ∧
      (c.after es').concludes op e.1 = true ∧ (c.after es').recognisesReset e.2 = false := by
  -- edges that hold the processor leave it in front of the same opcode
  suffices hgen : ∀ r : Registers, c.state.regs.pc = r.pc →
      c.state.regs.p.interruptDisable = r.p.interruptDisable →
      ∃ es' e, es = es' ++ [e] ∧ (c.after es').Within op r ∧
        (c.after es').concludes op e.1 = true ∧ (c.after es').recognisesReset e.2 = false from
    hgen c.state.regs rfl rfl
  intro r hpc hmask
  induction es generalizing c asked with
  | nil => exact h.elim
  | cons e es ih =>
    obtain ⟨hr, hspan⟩ := (spans_cons (returns_of_step_zero h0 e)).1 h
    have hw := hc.wellFormed.state
    suffices hrest : ∃ es' e', es = es' ++ [e'] ∧ ((c.edge e.1 e.2).after es').Within op r ∧
        ((c.edge e.1 e.2).after es').concludes op e'.1 = true ∧
        ((c.edge e.1 e.2).after es').recognisesReset e'.2 = false by
      obtain ⟨es', e', rfl, h'⟩ := hrest
      exact ⟨e :: es', e', rfl, h'⟩
    cases hready : e.1.ready.asserted with
    | false =>
      have hedge := edge_of_held hs hr hready
      have hheard' : heard (beats (asked || e.1.setOverflow.asserted) es) 0 = opcode := by
        rw [beats, hready] at hheard
        exact hheard
      apply ih hspan (hc.edge e.1 e.2) ?_ ?_ ?_ hheard' ?_ ?_
      all_goals rw [hedge]; assumption
    | true =>
      have hfetch : c.state.currentOp = .fetchOpcode := by
        rw [State.currentOp_of_step_zero _ h0, if_pos hq]
      have hdata : e.2.data = opcode := by
        rw [beats, hready] at hheard
        exact hheard
      have hi : Instruction.decode c.config.policy e.2.data = ⟨opcode, .implied op, .halt⟩ := by
        rw [hdata]
        exact Instruction.decode_of_bound hbound _
      let t := ((c.state.sample e.1).bumpPc.withData e.2.data).latchOpcode c.config.policy e.2.data
      have hedge : c.edge e.1 e.2 = c.completes ((t.atStep 1).withHold (c.countReset e.2)) := by
        have hstep : t.step = 0 := h0
        rw [edge_of_ready hw hs hr hready, hfetch, ← State.advance_of_step_zero t hstep]
        rfl
      have hwithin : (c.edge e.1 e.2).Within op r := by
        rw [hedge]
        exact {
          step_ne := Nat.one_ne_zero
          sequence := hq
          mode := congrArg Instruction.mode hi
          operation := congrArg Instruction.operation hi
          pc := congrArg (· + 1) hpc
          masked := hmask }
      exact hwithin.ends (hc.edge e.1 e.2) hspan

end Cpu

end Cmos6502
