import Cmos6502.Proofs.Suspension
import Cmos6502.Proofs.WaitStates

namespace Cmos6502

theorem Bus.driveTransfer_again (bus : Bus) (fetch vector lock : Bool) (t : Transfer) :
    let b := (bus.signal fetch vector lock).driveTransfer t
    (b.signal fetch vector lock).driveTransfer t = b := by
  obtain ⟨address, data, rw, irq, nmi, reset, ⟨enabled⟩, _⟩ := bus
  cases enabled with
  | false => rfl
  | true => cases t <;> rfl

namespace State

variable {s t u : State} {bus bus' : Bus}

theorem drives_drives (s : State) (bus : Bus) : s.drives (s.drives bus) = s.drives bus :=
  Bus.driveTransfer_again bus _ _ _ _

theorem sample_congr (s : State) (h : bus'.inputs = bus.inputs) :
    s.sample bus' = s.sample bus := by
  calc
    s.sample bus' = s.sample (bus'.withInputs bus.inputs) := by rw [← h, Bus.withInputs_inputs]
    _ = s.sample (bus.withInputs bus.inputs) := by rw [sample_withInputs, sample_withInputs]
    _ = s.sample bus := by rw [Bus.withInputs_inputs]

theorem watch_congr (s : State) (h : bus'.inputs = bus.inputs) : s.watch bus' = s.watch bus := by
  rw [watch, watch, sample_congr s h]

theorem not_wakes_again (h : ¬ (s.watch bus).stopped = true) :
    ((s.watch bus).sample bus).wakes = false := by
  have hs : ¬ s.stopped = true := by
    intro hs
    rw [watch, if_pos hs] at h
    exact h hs
  rw [watch, if_neg hs, sample_wake_sample, wakes_wake]

/-- From `s` to `t` no cycle has been carried out: the registers are as they were, but that
overflow may have been asked for. -/
structure Unmoved (s t : State) : Prop where
  step : t.step = s.step
  regs : t.regs = { s.regs with p.overflow := t.regs.p.overflow }
  latches : t.latches = s.latches
  instruction : t.instruction = s.instruction

theorem Unmoved.trans (h : s.Unmoved t) (h' : t.Unmoved u) : s.Unmoved u where
  step := h'.step.trans h.step
  regs := by
    rw [h'.regs, h.regs]
  latches := h'.latches.trans h.latches
  instruction := h'.instruction.trans h.instruction

theorem WellFormed.unmoved_watch (h : s.WellFormed) (bus : Bus) : s.Unmoved (s.watch bus) := by
  rw [State.watch, wake]
  split
  · exact ⟨rfl, rfl, rfl, rfl⟩
  · split
    · next hw =>
      -- a wait stands before a fetch, so the boundary that ends it has nothing to clear
      have hstep : s.step = 0 := (h.waiting (Bool.and_eq_true_iff.1 hw).1).1
      rw [boundary_eq]
      exact ⟨hstep.symm, rfl, (h.clear hstep).symm, rfl⟩
    · exact ⟨rfl, rfl, rfl, rfl⟩

/-- From `s` to `t` the processor has done nothing but look at its lines, and has not woken: it
stands in the same sequence. -/
def Looks (s t : State) : Prop :=
  ∃ asked requests hold, t = (s.raise asked).reframe s.sequence s.step requests hold

theorem Looks.refl (s : State) : s.Looks s :=
  ⟨false, s.requests, s.resetHold, by rw [raise_false]; rfl⟩

theorem Looks.trans (h : s.Looks t) (h' : t.Looks u) : s.Looks u := by
  obtain ⟨asked, r, hold, rfl⟩ := h
  obtain ⟨asked', r', hold', rfl⟩ := h'
  refine ⟨asked || asked', r', hold', ?_⟩
  rw [← raise_raise]
  rfl

theorem looks_sample (s : State) (bus : Bus) : s.Looks (s.sample bus) :=
  ⟨bus.setOverflow.asserted, _, s.resetHold, rfl⟩

theorem looks_withHold (s : State) (hold : Byte) : s.Looks (s.withHold hold) :=
  ⟨false, s.requests, hold, by rw [raise_false]; rfl⟩

theorem Looks.unmoved (h : s.Looks t) : s.Unmoved t := by
  obtain ⟨asked, r, hold, rfl⟩ := h
  exact ⟨rfl, rfl, rfl, rfl⟩

theorem Looks.suspended_eq (h : s.Looks t) : t.suspended = s.suspended := by
  obtain ⟨asked, r, hold, rfl⟩ := h
  rfl

theorem Looks.currentOp_eq (h : s.Looks t) : t.currentOp = s.currentOp := by
  obtain ⟨asked, r, hold, rfl⟩ := h
  rfl

/-- Overflow is part of a byte that is pushed, and of no address. -/
theorem Looks.address_eq (h : s.Looks t) (op : MicroOp) :
    (op.transfer t).address = (op.transfer s).address := by
  obtain ⟨asked, r, hold, rfl⟩ := h
  rw [MicroOp.transfer_reframe]
  cases op <;> rfl

end State

namespace Cpu

variable {c : Cpu} {bus bus' settled : Bus} {es : List (Bus × Bus)}

theorem runs_congr (h : bus'.inputs = bus.inputs) : c.runs bus' = c.runs bus := by
  have hready : bus'.ready.asserted = bus.ready.asserted := congrArg Inputs.ready h
  rw [runs, runs, State.watch_congr c.state h, hready]

theorem state_drive (hw : c.state.WellFormed) (bus : Bus) :
    (c.drive bus).1.state = c.state.watch bus := by
  cases hrun : c.runs bus with
  | false =>
    rw [drive_of_not_runs hrun]
    rfl
  | true =>
    rw [drive_of_runs hw hrun]
    rfl

theorem drive_driven (hw : c.state.WellFormed) (bus : Bus) :
    c.drive (c.drive bus).2 = c.drive bus := by
  have hi : (c.drive bus).2.inputs = bus.inputs := inputs_drive c bus
  have hwatch := State.watch_congr c.state hi
  have hrun' : c.runs (c.drive bus).2 = c.runs bus := runs_congr hi
  cases hrun : c.runs bus with
  | false =>
    rw [drive_of_not_runs (hrun'.trans hrun), hwatch, drive_of_not_runs hrun]
    split <;> rfl
  | true =>
    rw [drive_of_runs hw (hrun'.trans hrun), hwatch, drive_of_runs hw hrun, State.drives_drives]

theorem drive_again (hw : c.state.WellFormed) (h : bus'.inputs = bus.inputs) :
    (c.drive bus).1.drive bus' = c.drive bus' := by
  have hwatch : (c.state.watch bus).watch bus' = c.state.watch bus' := by
    rw [State.watch_congr _ h, State.watch_watch, State.watch_congr _ h]
  have hidle := drive_of_watched hwatch
  cases hrun : c.runs bus with
  | false =>
    rw [drive_of_not_runs hrun]
    exact hidle
  | true =>
    rw [drive_of_runs hw hrun]
    exact hidle

theorem drive_drive (hw : c.state.WellFormed) (bus : Bus) :
    (c.drive bus).1.drive (c.drive bus).2 = c.drive bus := by
  rw [drive_again hw (inputs_drive c bus), drive_driven hw]

theorem driveReports_again (hw : c.WellFormed) (bus : Bus) :
    (c.drive bus).1.driveReports (c.drive bus).2 = [] := by
  have hi : (c.drive bus).2.inputs = bus.inputs := inputs_drive c bus
  have hstate : (c.drive bus).1.state = c.state.watch bus := state_drive hw.state bus
  rw [driveReports_eq (hw.drive bus).state, hstate]
  split
  · rfl
  · next hs =>
    apply State.wakeReports_of_not_wakes
    rw [State.sample_congr _ hi]
    exact State.not_wakes_again hs

theorem finish_of_idle (h : c.inFlight = none) (bus : Bus) : c.finish bus = c := by
  rw [finish, h]

theorem latch_of_released (h : bus.reset.asserted = false) :
    c.latch bus = (c.finish bus).withHold 0 := by
  rw [latch, checkReset_of_not_recognised (not_recognised_of_released h), countReset, h]
  rfl

theorem inFlight_latch (h : bus.reset.asserted = false) : (c.latch bus).inFlight = none := by
  rw [latch_of_released h]
  exact inFlight_finish c bus

theorem latch_latch (h : bus.reset.asserted = false) (h' : bus'.reset.asserted = false) :
    (c.latch bus).latch bus' = c.latch bus := by
  rw [latch_of_released h', finish_of_idle (inFlight_latch h), latch_of_released h]
  rfl

theorem latchReports_again (h : bus.reset.asserted = false) (h' : bus'.reset.asserted = false) :
    (c.latch bus).latchReports bus' = [] := by
  have hidle : (c.latch bus).inFlight = none := inFlight_latch h
  have hnone : (c.latch bus).finishReports bus' = [] := by rw [finishReports, hidle]
  rw [latchReports, hnone, List.nil_append]
  apply if_neg
  rintro ⟨hr, -⟩
  rw [h'] at hr
  cases hr

theorem looks_edge_of_held {e : Bus × Bus} (hs : c.state.suspended = false)
    (hr : c.Unreset e) (hready : e.1.ready.asserted = false) :
    c.state.Looks (c.edge e.1 e.2).state ∧ (c.edge e.1 e.2).cycles = c.cycles ∧
      (c.edge e.1 e.2).config = c.config := by
  rw [edge_of_held hs hr hready]
  exact ⟨(c.state.looks_sample e.1).trans (State.looks_withHold _ _), rfl, rfl⟩

theorem looks_after_held (hs : c.state.suspended = false)
    (hready : ∀ e ∈ es, e.1.ready.asserted = false) (hr : c.Along Unreset es) :
    c.state.Looks (c.after es).state ∧ (c.after es).cycles = c.cycles ∧
      (c.after es).config = c.config := by
  induction es generalizing c with
  | nil => exact ⟨.refl _, rfl, rfl⟩
  | cons e es ih =>
    obtain ⟨he, hes⟩ := List.forall_mem_cons.1 hready
    obtain ⟨hlook, hcycles, hconfig⟩ := looks_edge_of_held hs hr.1 he
    obtain ⟨hlook', hcycles', hconfig'⟩ := ih (hlook.suspended_eq.trans hs) hes hr.2
    exact ⟨hlook.trans hlook', hcycles'.trans hcycles, hconfig'.trans hconfig⟩

theorem edge_eq_checkReset {e : Bus × Bus} (hw : c.state.WellFormed)
    (hs : c.state.suspended = false) (hready : e.1.ready.asserted = true) :
    c.edge e.1 e.2 =
      (c.completes ((c.state.sample e.1).cycle c.config.policy e.2)).checkReset e.2 := by
  rw [edge, latch, drive_of_runs hw ((runs_eq_ready hs e.1).trans hready),
    State.watch_of_running hs]
  rfl

theorem abandoned (hw : c.state.WellFormed) {op : MicroOp} {t : Transfer}
    (ha : c.access bus = some (op, t)) {e : Bus × Bus} (hready : e.1.ready.asserted = false)
    (hr : (c.drive bus).1.Unreset e) :
    let r := c.state.watch bus
    let d := (c.drive bus).1.edge e.1 e.2
    op = r.currentOp ∧ t = op.transfer r ∧ d.state.suspended = false ∧
      r.Looks d.state ∧ d.cycles = c.cycles ∧ d.config = c.config := by
  intro r d
  have hrun : c.runs bus = true := by
    by_contra hn
    rw [access_of_not_runs (Bool.eq_false_iff.2 hn)] at ha
    cases ha
  have hs : r.suspended = false := by
    rw [runs, Bool.and_eq_true, Bool.not_eq_true'] at hrun
    exact hrun.1
  have hdrive : (c.drive bus).1 = c.starts r := congrArg Prod.fst (drive_of_runs hw hrun)
  have hd : d = (c.starts r).edge e.1 e.2 := congrArg (edge · e.1 e.2) hdrive
  rw [hdrive] at hr
  rw [access_of_runs hw hrun] at ha
  obtain ⟨rfl, rfl⟩ := Prod.mk.inj (Option.some.inj ha)
  obtain ⟨hlook, hcycles, hconfig⟩ := looks_edge_of_held (c := c.starts r) hs hr hready
  rw [← hd] at hlook hcycles hconfig
  exact ⟨rfl, rfl, hlook.suspended_eq.trans hs, hlook, hcycles, hconfig⟩

theorem resumes (hc : c.Reachable) (hs : c.state.suspended = false)
    (hready : ∀ e ∈ es, e.1.ready.asserted = false) (hr : c.Along Unreset es) {f : Bus × Bus}
    (hf : f.1.ready.asserted = true) :
    let w := c.after es
    let s := w.state.sample f.1
    let op := c.state.currentOp
    c.state.Looks s ∧ w.cycles = c.cycles ∧ w.access f.1 = some (op, op.transfer s) ∧
      w.edge f.1 f.2 =
        (w.completes (s.finish c.config.policy op (received (op.transfer s) f.2))).checkReset
          f.2 := by
  intro w s op
  obtain ⟨hlook, hcycles, hconfig⟩ := looks_after_held hs hready hr
  have hw : w.state.WellFormed := (hc.after es).wellFormed.state
  have hs' : w.state.suspended = false := hlook.suspended_eq.trans hs
  have hop : w.state.currentOp = op := hlook.currentOp_eq
  have hop' : s.currentOp = op := hop
  refine ⟨hlook.trans (w.state.looks_sample f.1), hcycles, ?_, ?_⟩
  · rw [access_of_running hw hs', if_pos hf, hop]
  · have hedge := edge_eq_checkReset hw hs' hf
    rwa [hconfig, State.cycle, hop'] at hedge

/-- To drive twice comes to driving once, even when the first has taken notice of a falling line
or ended a wait, and so it is with latching while reset is released. An access that is begun and
then abandoned, the processor being held, is no cycle, and the micro-op it was for is carried out
as soon as the processor may work again. -/
theorem halves_idempotent (hc : c.Reachable) :
    (∀ bus, (c.drive bus).1.drive (c.drive bus).2 = c.drive bus ∧
      (c.drive bus).1.driveReports (c.drive bus).2 = []) ∧
    (∀ bus bus', bus.reset.asserted = false → bus'.reset.asserted = false →
      (c.latch bus).latch bus' = c.latch bus ∧ (c.latch bus).latchReports bus' = []) ∧
    ∀ bus op t, c.access bus = some (op, t) →
      ∀ e : Bus × Bus, e.1.ready.asserted = false → e.2.reset.asserted = false →
        let d := (c.drive bus).1.edge e.1 e.2
        d.cycles = c.cycles ∧ c.state.Unmoved d.state ∧
        ∀ es, (∀ e ∈ es, e.1.ready.asserted = false) → d.Along Unreset es →
          ∀ f : Bus × Bus, f.1.ready.asserted = true →
            let w := d.after es
            let s := w.state.sample f.1
            w.cycles = c.cycles ∧ c.state.Unmoved s ∧
            w.access f.1 = some (op, op.transfer s) ∧ (op.transfer s).address = t.address ∧
            w.edge f.1 f.2 =
              (w.completes (s.finish c.config.policy op
                (received (op.transfer s) f.2))).checkReset f.2 := by
  have hw := hc.wellFormed
  refine ⟨fun bus => ⟨drive_drive hw.state bus, driveReports_again hw bus⟩,
    fun bus bus' h h' => ⟨latch_latch h h', latchReports_again h h'⟩, ?_⟩
  intro bus op t ha e he hreset d
  -- the drive may have ended a wait, so that only after it the processor does no more than look
  have hmoved : c.state.Unmoved (c.state.watch bus) := hw.state.unmoved_watch bus
  obtain ⟨hop, ht, hs, hlook, hcycles, hconfig⟩ :=
    abandoned hw.state ha he (not_recognised_of_released hreset)
  have hd : d.Reachable := (Reachable.drive bus hc).edge e.1 e.2
  have hop' : d.state.currentOp = op := hlook.currentOp_eq.trans hop.symm
  refine ⟨hcycles, hmoved.trans hlook.unmoved, ?_⟩
  intro es hes hr f hf w s
  obtain ⟨hlook', hcycles', haccess, hedge⟩ := resumes hd hs hes hr hf
  rw [hop'] at haccess hedge
  rw [hconfig] at hedge
  have hlooks : (c.state.watch bus).Looks s := hlook.trans hlook'
  refine ⟨hcycles'.trans hcycles, hmoved.trans hlooks.unmoved, haccess, ?_, hedge⟩
  rw [ht]
  exact hlooks.address_eq op

/-- The non-maskable line ends a wait as the processor drives, which it does twice; in another
course of events the access is abandoned, and six edges go by on which overflow is asked for. -/
theorem halves_idempotent_waking :
    let wai : Bus := { Bus.quiet with data := 0xCB }
    let falling : Bus := { Bus.quiet with nmi := .held }
    let stalled : Bus := { falling with ready := .released, setOverflow := .held }
    let c := ((powerOn .standard).startAt .powerOn).after (List.replicate 3 (wai, wai))
    let again := (c.drive falling).1.drive (c.drive falling).2
    let l := (c.drive falling).1.latch falling
    let d := (c.drive falling).1.edge stalled stalled
    let w := d.after (List.replicate 5 (stalled, stalled))
    c.state.paused = true ∧
      again.1.state.sequence = .nmi ∧ again.1.state.requests.nmi = false ∧
      again.1.inFlight = some (.dummyProgram, .read 1) ∧
      l.cycles = 4 ∧ l.latch falling = l ∧
      d.cycles = 3 ∧ d.state.latches = .clear ∧ d.state.regs.pc = 1 ∧
      w.access falling = some (.dummyProgram, .read 1) := by
  intro wai falling stalled c again l d w
  have hc : c.Reachable := Reachable.after (.startAt _ (.powerOn _)) _
  have hpaused : c.state.paused = true := by decide +kernel
  have hcycles : c.cycles = 3 := by decide +kernel
  have hlatches : c.state.latches = .clear := by decide +kernel
  have hpc : c.state.regs.pc = 1 := by decide +kernel
  have hentry : (c.drive falling).1.state.sequence = .nmi := by decide +kernel
  have hserved : (c.drive falling).1.state.requests.nmi = false := by decide +kernel
  have haccess : c.access falling = some (.dummyProgram, .read 1) := by decide +kernel
  have hlatched : l.cycles = 4 := by decide +kernel
  have hready : stalled.ready.asserted = false := rfl
  clear_value c
  obtain ⟨hdrive, -, habandon⟩ := halves_idempotent hc
  obtain ⟨-, hlatch, -⟩ := halves_idempotent (.drive falling hc)
  have hagain : again = c.drive falling := (hdrive falling).1
  obtain ⟨hd, hmoved, hresume⟩ := habandon falling _ _ haccess (stalled, stalled) hready rfl
  have hes : ∀ e ∈ List.replicate 5 (stalled, stalled), e.1.ready.asserted = false := by
    intro e he
    rw [List.eq_of_mem_replicate he, hready]
  obtain ⟨-, -, hperforms, haddress, -⟩ :=
    hresume _ hes (along_unreset (by decide)) (falling, falling) rfl
  rw [hagain]
  refine ⟨hpaused, hentry, hserved, haccess, hlatched,
    (hlatch falling falling rfl rfl).1, hd.trans hcycles, hmoved.latches.trans hlatches, ?_, ?_⟩
  · rw [hmoved.regs]
    exact hpc
  · exact hperforms.trans
      (congrArg (fun a => some (MicroOp.dummyProgram, Transfer.read a)) haddress)

end Cpu

namespace Computer

theorem reports_respond (ms : List Memory) (bus : Bus) : (respond ms bus).reports = [] := by
  induction ms generalizing bus with
  | nil => rfl
  | cons m ms ih => rw [respond_cons, ih]

theorem reports_edge (m : Computer) : m.edge.reports = m.cpu.edgeReports (m.bus, m.settled) := by
  have h : m.edge.reports =
      (m.cpu.driveReports m.bus ++ (respond m.memories (m.cpu.drive m.bus).2).reports) ++
        ((m.cpu.drive m.bus).1.latchReports m.settled ++
          (settle (respond m.memories (m.cpu.drive m.bus).2).chip m.settled).reports) := rfl
  rw [h, reports_respond, settle_eq, List.append_nil, List.append_nil]
  rfl

/-- The half edges of the processor and of the memories, taken in turn, make up an edge of the
computer; only the count of edges is the edge's own. -/
theorem edge_eq_halves (m : Computer) :
    let d := m.driveCpu
    let l := d.1.driveMemories.latchCpu
    m.edge.computer = { l.1 with edges := m.edges + ⟨1⟩ } ∧ m.edge.reports = d.2 ++ l.2 := by
  intro d l
  constructor
  · rw [edge_computer]
    rfl
  · rw [reports_edge]
    rfl

end Computer

end Cmos6502
