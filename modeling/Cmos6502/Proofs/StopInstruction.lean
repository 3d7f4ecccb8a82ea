import Cmos6502.Proofs.Suspension

namespace Cmos6502.Cpu

variable {c : Cpu} {e : Bus × Bus} {es : List (Bus × Bus)}

/-- An edge takes no notice of interrupts: no entry begins, none is told of, and what is
latched stays latched. -/
structure Ignores (c : Cpu) (e : Bus × Bus) : Prop where
  sequence : (c.edge e.1 e.2).state.sequence = .instruction
  latched : (c.edge e.1 e.2).state.requests.nmi = (c.state.requests.nmi || c.seesFall e.1)
  untold : ∀ q pc p, .entered q pc p ∉ c.edgeReports e

theorem conclude_stp (hc : c.Reachable) (hr : c.Unreset e) (h : c.concludes .stp e.1 = true) :
    let q := c.choice e.1
    let s := c.state.sample e.1
    let t := (c.edge e.1 e.2).state
    t.stopped = true ∧ t.sequence = q ∧ t.requests.nmi = false ∧ t.regs = s.regs ∧
      c.edgeReports e = .stopping s.regs.pc ::
        if q = .instruction then [] else [.entered q s.regs.pc s.regs.p] := by
  intro q s t
  have hw := hc.wellFormed.state
  obtain ⟨-, hs, -, hop⟩ := (concludes_iff hw).1 h
  obtain ⟨hstop, hpause⟩ := Bool.or_eq_false_iff.1 hs
  have hperform : s.perform = { s with stopped := true } := State.perform_stp hs hop
  have hnext : s.next = q := sample_next hstop e.1
  have ht : t = ({ s with stopped := true } : State).boundary.withHold (c.countReset e.2) := by
    rw [← hperform]
    exact congrArg Cpu.state (edge_of_concludes hw hr h)
  have hreports : c.edgeReports e = s.performReports ++ s.perform.boundaryReports :=
    edgeReports_of_concludes hw hr h
  have hstopping : s.performReports = [.stopping s.regs.pc] := by
    have hop' : s.operation = .implied .stp := hop
    rw [State.performReports, hop']
    rfl
  have hboundary : s.perform.boundaryReports =
      if q = .instruction then [] else [.entered q s.regs.pc s.regs.p] := by
    have hpause' : s.paused = false := hpause
    rw [hperform, ← hnext, State.boundaryReports]
    simp only [hpause']
    rfl
  rw [ht, State.boundary_eq, hreports, hstopping, hboundary]
  exact ⟨rfl, hnext, rfl, rfl, rfl⟩

theorem ignores_iff (hc : c.Reachable) (hr : c.Unreset e) (h : c.concludes .stp e.1 = true) :
    c.Ignores e ↔ c.choice e.1 = .instruction := by
  obtain ⟨-, hseq, hnmi, -, hreports⟩ := conclude_stp hc hr h
  constructor
  · intro hi
    exact hseq.symm.trans hi.sequence
  · intro hq
    have hnone : (c.state.requests.nmi || c.seesFall e.1) = false := by
      cases hn : (c.state.requests.nmi || c.seesFall e.1) with
      | false => rfl
      | true =>
        rw [choice, hn] at hq
        cases hq
    rw [hq, if_pos rfl] at hreports
    exact {
      sequence := hseq.trans hq
      latched := hnmi.trans hnone.symm
      untold := by simp [hreports] }

theorem edge_of_stopped (hs : c.state.stopped = true) (hr : c.Unreset e) :
    c.Idle e ∧ c.edge e.1 e.2 = c.idles (c.state.withHold (c.countReset e.2)) := by
  have hwatch : c.state.watch e.1 = c.state := if_pos hs
  have hsus : (c.state.watch e.1).suspended = true := by
    rw [hwatch]
    exact Bool.or_eq_true_iff.2 (.inl hs)
  have hrun : c.runs e.1 = false := by rw [runs, hsus]; rfl
  refine ⟨idle_of_suspended hr hsus fun h => ?_, ?_⟩
  · rw [hs] at h
    cases h
  · rw [edge_of_not_runs hrun hr, hwatch]

theorem after_stopped (hs : c.state.stopped = true) (hes : c.Along Unreset es) :
    c.Along Idle es ∧ (c.after es).cycles = c.cycles ∧
      ∃ hold, (c.after es).state = c.state.withHold hold := by
  induction es generalizing c with
  | nil => exact ⟨trivial, rfl, c.state.resetHold, rfl⟩
  | cons e es ih =>
    obtain ⟨hidle, hedge⟩ := edge_of_stopped hs hes.1
    have hs' : (c.edge e.1 e.2).state.stopped = true := by
      rw [hedge]
      exact hs
    obtain ⟨hall, hcycles, hold, hstate⟩ := ih hs' hes.2
    refine ⟨⟨hidle, hall⟩, hcycles.trans ?_, hold, hstate.trans ?_⟩
    · rw [hedge]
      rfl
    · rw [hedge]
      rfl

/-- `STP` stops the processor on its last edge, and from then on nothing happens to it until
reset, whatever interrupts are asked for. The last edge itself takes no notice of them if, and
only if, there is none that it could enter. -/
theorem stops_until_reset (hc : c.Reachable) :
    (∀ e : Bus × Bus, c.Unreset e → c.concludes .stp e.1 = true →
      (c.edge e.1 e.2).state.stopped = true ∧
        (c.edge e.1 e.2).state.regs.pc = c.state.regs.pc ∧
        (c.Ignores e ↔ arbitrated (c.state.requests.nmi || c.seesFall e.1) e.1.irq.asserted
          c.state.regs.p.interruptDisable = .instruction)) ∧
    (c.state.suspended = false → c.state.step = 0 → c.state.sequence = .instruction →
      ∀ es, c.Spans es → heard (beats false es) 0 = 0xDB →
        ∃ es' e, es = es' ++ [e] ∧ (c.after es').Unreset e ∧
          (c.after es').concludes .stp e.1 = true ∧
          (c.after es').state.regs.pc = c.state.regs.pc + 1) ∧
    (c.state.stopped = true → ∀ es, c.Along Unreset es →
      c.Along Idle es ∧ (c.after es).cycles = c.cycles ∧
        ∃ hold, (c.after es).state = c.state.withHold hold) := by
  refine ⟨fun e hr h => ?concluded, fun hs h0 hq es hspan hop => ?fetched,
    fun hs es hes => after_stopped hs hes⟩
  case concluded =>
    obtain ⟨hstop, -, -, hregs, -⟩ := conclude_stp hc hr h
    refine ⟨hstop, ?_, ignores_iff hc hr h⟩
    rw [hregs]
    rfl
  case fetched =>
    obtain ⟨es', e, rfl, hwithin, hconc, hr⟩ := hspan.concludes hc hs h0 hq hop rfl
    exact ⟨es', e, rfl, hr, hconc, hwithin.pc⟩

theorem stops_until_reset_deaf :
    let c := (powerOn .standard).startAt { Registers.powerOn with pc := 0xFFFF }
    let stp : Bus := { Bus.quiet with data := 0xDB }
    let asking : Bus := { Bus.quiet with irq := .held, nmi := .held }
    let d := c.after (List.replicate 3 (stp, stp))
    let t := d.after (List.replicate 20 (asking, asking))
    d.state.stopped = true ∧ t.cycles = 3 ∧ t.state.regs.pc = 0x0000 ∧
      t.state.sequence = .instruction ∧ t.state.requests.nmi = false := by
  intro c stp asking d t
  have hd : d.Reachable := Reachable.after (.startAt _ (.powerOn _)) _
  have hs : d.state.stopped = true := by decide +kernel
  have hcycles : d.cycles = 3 := by decide +kernel
  have hpc : d.state.regs.pc = 0x0000 := by decide +kernel
  have hseq : d.state.sequence = .instruction := by decide +kernel
  have hnmi : d.state.requests.nmi = false := by decide +kernel
  clear_value d
  have hes : d.Along Unreset (List.replicate 20 (asking, asking)) := along_unreset (by decide)
  obtain ⟨-, -, hafter⟩ := stops_until_reset hd
  obtain ⟨-, hstay, hold, hstate⟩ := hafter hs _ hes
  refine ⟨hs, hstay.trans hcycles, ?_, ?_, ?_⟩
  · exact (congrArg (fun s => s.regs.pc) hstate).trans hpc
  · exact (congrArg State.sequence hstate).trans hseq
  · exact (congrArg (fun s => s.requests.nmi) hstate).trans hnmi

/-- A non-maskable interrupt that is asked for during `STP` is used up on its last edge, which
tells of an entry, and is never entered. -/
theorem stop_takes_interrupt :
    let c := (powerOn .standard).startAt { Registers.powerOn with pc := 0x0200 }
    let stp : Bus := { Bus.quiet with data := 0xDB, nmi := .held }
    let d := c.after (List.replicate 2 (stp, stp))
    let t := (d.edge stp stp).state
    d.concludes .stp stp = true ∧ d.state.requests.nmi = true ∧ ¬ d.Ignores (stp, stp) ∧
      t.stopped = true ∧ t.sequence = .nmi ∧ t.requests.nmi = false ∧
      .entered .nmi 0x0201 t.regs.p ∈ d.edgeReports (stp, stp) := by
  intro c stp d t
  have hseq : t.sequence = .nmi := by decide +kernel
  refine ⟨by decide +kernel, by decide +kernel, fun h => ?_, by decide +kernel, hseq,
    by decide +kernel, by decide +kernel⟩
  have hclash := hseq.symm.trans h.sequence
  cases hclash

end Cmos6502.Cpu
