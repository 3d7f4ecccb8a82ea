import Cmos6502.Proofs.Requests

namespace Cmos6502

def Inputs.SameButInterrupts (i j : Inputs) : Prop := j = { i with irq := j.irq, nmi := j.nmi }

namespace Bus

theorem driveTransfer_withInputs (b : Bus) {i j : Inputs} (h : j.busEnable = i.busEnable)
    (fetch vector lock : Bool) (t : Transfer) :
    ((b.withInputs j).signal fetch vector lock).driveTransfer t =
      (((b.withInputs i).signal fetch vector lock).driveTransfer t).withInputs j := by
  simp only [driveTransfer, signal, withInputs, Line.asserted_ofAsserted, h]
  cases i.busEnable with
  | false => rfl
  | true => cases t <;> rfl

end Bus

namespace Cpu

def withRequests (c : Cpu) (r : Requests) : Cpu := { c with state := c.state.withRequests r }

variable {c : Cpu}

variable {i j : Inputs}

theorem sample_alike (h : i.SameButInterrupts j) (s : State) (r : Requests) (b : Bus) :
    (s.withRequests r).sample (b.withInputs j) =
      (s.sample (b.withInputs i)).withRequests (r.after j) := by
  have ho : j.setOverflow = i.setOverflow := by rw [h]
  rw [State.sample_withInputs, State.sample_withInputs, ho]
  rfl

theorem drives_alike (h : i.SameButInterrupts j) (s : State) (r : Requests) (b : Bus) :
    (s.withRequests r).drives (b.withInputs j) =
      (s.drives (b.withInputs i)).withInputs j := by
  have hb : j.busEnable = i.busEnable := by rw [h]
  rw [State.drives, State.drives, ← Bus.driveTransfer_withInputs b hb]
  have ho : (s.withRequests r).currentOp = s.currentOp := rfl
  have hl : (s.withRequests r).locksMemory = s.locksMemory := rfl
  rw [ho, hl, State.transfer_withRequests]

theorem starts_withRequests (s : State) (r r' : Requests) :
    (c.withRequests r).starts (s.withRequests r') = (c.starts s).withRequests r' := by
  have ho : (s.withRequests r').currentOp = s.currentOp := rfl
  rw [starts, ho, State.transfer_withRequests]
  rfl

theorem drive_alike (hw : c.WellFormed) (hs : c.state.suspended = false) {r : Requests}
    (hw' : (c.withRequests r).WellFormed) (h : i.SameButInterrupts j) (b : Bus) :
    ((c.withRequests r).drive (b.withInputs j)).1 =
        (c.drive (b.withInputs i)).1.withRequests (r.after j) ∧
      ((c.withRequests r).drive (b.withInputs j)).2 =
        (c.drive (b.withInputs i)).2.withInputs j := by
  have hs' : (c.withRequests r).state.suspended = false := hs
  have hready : j.ready = i.ready := by rw [h]
  have hrun := runs_of_running hs b i
  have hrun' := (runs_of_running hs' b j).trans hready
  have hsample := sample_alike h c.state r b
  cases hi : i.ready with
  | false =>
    rw [drive_of_not_runs (hrun.trans hi), drive_of_not_runs (hrun'.trans hi),
      State.watch_of_running hs, State.watch_of_running hs']
    have hn : (c.state.sample (b.withInputs i)).suspended = false := hs
    have hn' : ((c.withRequests r).state.sample (b.withInputs j)).suspended = false := hs
    rw [hn, hn']
    exact ⟨congrArg (fun s => Cpu.mk c.config s none c.cycles) hsample, rfl⟩
  | true =>
    rw [drive_of_runs hw.state (hrun.trans hi), drive_of_runs hw'.state (hrun'.trans hi),
      State.watch_of_running hs, State.watch_of_running hs']
    change (c.withRequests r).starts ((c.state.withRequests r).sample (b.withInputs j)) = _ ∧
      ((c.state.withRequests r).sample (b.withInputs j)).drives (b.withInputs j) = _
    rw [hsample, starts_withRequests, drives_alike h]
    exact ⟨rfl, rfl⟩

theorem edge_alike (hw : c.WellFormed) (hs : c.state.suspended = false) {r : Requests}
    (hw' : (c.withRequests r).WellFormed) (h : i.SameButInterrupts j) (b : Bus)
    {settled settled' : Bus} (hr : settled.reset.asserted = false)
    (hr' : settled'.reset.asserted = false) (hd : settled'.data = settled.data) :
    let e := c.edge (b.withInputs i) settled
    let e' := (c.withRequests r).edge (b.withInputs j) settled'
    ∃ t : State, t.requests = c.state.requests.after i ∧ t.sequence = c.state.sequence ∧
      ((e.state = t ∧ e' = { e with state := t.withRequests (r.after j) } ∧
        (t.step = 0 → c.state.step = 0) ∧ t.suspended = false) ∨
      (c.state.step ≠ 0 ∧ e.state = t.boundary ∧
        e' = { e with state := (t.withRequests (r.after j)).boundary })) := by
  have hs' : (c.withRequests r).state.suspended = false := hs
  have hconfig : (c.withRequests r).config = c.config := rfl
  have hready : j.ready = i.ready := by rw [h]
  have hrun := runs_of_running hs b i
  have hrun' := (runs_of_running hs' b j).trans hready
  have hn := not_recognised_of_released (c := c) hr
  have hn' := not_recognised_of_released (c := c.withRequests r) hr'
  have hz : c.countReset settled = 0 := by simp [countReset, hr]
  have hz' : (c.withRequests r).countReset settled' = 0 := by simp [countReset, hr']
  have hsample : (c.withRequests r).state.watch (b.withInputs j) =
      (c.state.sample (b.withInputs i)).withRequests (r.after j) := by
    rw [State.watch_of_running hs']
    exact sample_alike h c.state r b
  have hreq : (c.state.sample (b.withInputs i)).requests = c.state.requests.after i := by
    rw [State.sample_withInputs]
  cases hi : i.ready with
  | false =>
    simp only [edge_of_not_runs (hrun.trans hi) hn, edge_of_not_runs (hrun'.trans hi) hn',
      hsample, State.watch_of_running hs, hz, hz']
    exact ⟨(c.state.sample (b.withInputs i)).withHold 0, hreq, rfl, .inl ⟨rfl, rfl, id, hs⟩⟩
  | true =>
    simp only [edge_of_runs hw.state (hrun.trans hi) hn, edge_of_runs hw'.state (hrun'.trans hi) hn',
      hsample, State.watch_of_running hs, hz, hz', hconfig]
    obtain ⟨t, htr, htq, hcase⟩ := State.cycle_withRequests (c.state.sample (b.withInputs i))
      (r.after j) c.config.policy settled settled' hd
    -- the sequence goes on in both or ends in both, for they have heard the same byte
    obtain ⟨k, he, he'⟩ | ⟨hstep, he, he'⟩ := hcase
    · have hgo : (t.atStep (k + 1)).WellFormed := by
        rw [← he]
        exact (State.watch_of_running hs _ ▸ hw.state.watch (b.withInputs i)).finish hs _ _
      rw [he, he']
      exact ⟨(t.atStep (k + 1)).withHold 0, htr.trans hreq, htq,
        .inl ⟨rfl, rfl, fun h0 => absurd h0 (Nat.succ_ne_zero k),
          hgo.running (Nat.succ_ne_zero k)⟩⟩
    · rw [he, he', ← State.boundary_withHold, ← State.boundary_withHold]
      exact ⟨t.withHold 0, htr.trans hreq, htq, .inr ⟨hstep, rfl, rfl⟩⟩

end Cpu

namespace Computer

/-- Computers that differ in the input lines and in what the processor knows of
the interrupt lines alone. -/
structure Alike (m m' : Computer) : Prop where
  memories : m'.memories = m.memories
  bus : m'.bus = m.bus.withInputs m'.bus.inputs
  cpu : m'.cpu = m.cpu.withRequests m'.cpu.state.requests

def access (m : Computer) : Option (MicroOp × Transfer) := (m.cpu.drive m.bus).1.inFlight

theorem edge_alike {m m' : Computer} {i j : Inputs} (h : m.Alike m') (hw : m.cpu.WellFormed)
    (hw' : m'.cpu.WellFormed) (hs : m.cpu.state.suspended = false)
    (hij : i.SameButInterrupts j) (hr : i.reset = false) :
    let e := (m.under i).edge.computer
    let e' := (m'.under j).edge.computer
    (m'.under j).access = (m.under i).access ∧
    e'.memories = e.memories ∧ e'.bus = e.bus.withInputs j ∧
    ∃ t : State, t.requests = m.cpu.state.requests.after i ∧ t.sequence = m.cpu.state.sequence ∧
      ((e.cpu.state = t ∧
        e'.cpu = { e.cpu with state := t.withRequests (m'.cpu.state.requests.after j) } ∧
        (t.step = 0 → m.cpu.state.step = 0) ∧ t.suspended = false) ∨
      (m.cpu.state.step ≠ 0 ∧ e.cpu.state = t.boundary ∧
        e'.cpu = { e.cpu with
          state := (t.withRequests (m'.cpu.state.requests.after j)).boundary })) := by
  obtain ⟨hmem, hbus, hcpu⟩ := h
  generalize m'.cpu.state.requests = r at hcpu ⊢
  rw [hcpu] at hw'
  obtain ⟨hd, hdb⟩ := Cpu.drive_alike hw hs hw' hij m.bus
  have hunder : (m'.under j).bus = m.bus.withInputs j := by
    rw [bus_under, hbus]
    rfl
  have hdrive : (m'.under j).cpu.drive (m'.under j).bus =
      ((m.cpu.drive (m.bus.withInputs i)).1.withRequests (r.after j),
        (m.cpu.drive (m.bus.withInputs i)).2.withInputs j) := by
    rw [hunder, cpu_under, hcpu]
    exact Prod.ext hd hdb
  obtain ⟨hpc, hpb⟩ := respond_withInputs m.memories (m.cpu.drive (m.bus.withInputs i)).2 j
  have hsettled : (m'.under j).settled = (m.under i).settled.withInputs j := by
    rw [settled, hdrive, memories_under, hmem, hpb]
    rfl
  have hreset : (m.under i).settled.reset.asserted = false := by
    have hi := congrArg Inputs.reset (inputs_settled (m.under i))
    rw [bus_under, Bus.inputs_withInputs, hr] at hi
    exact hi
  have hreset' : (m'.under j).settled.reset.asserted = false := by
    have hj : j.reset = false := by rw [hij, hr]
    rw [hsettled]
    exact (Line.asserted_ofAsserted j.reset).trans hj
  refine ⟨?_, ?_, ?_, ?_⟩
  · rw [access, hdrive]
    rfl
  · rw [memories_edge, memories_edge, hdrive, memories_under, hmem, hpc]
    rfl
  · rw [bus_edge, bus_edge, hsettled]
  · rw [cpu_edge, cpu_edge, cpu_under, cpu_under, hunder, hcpu]
    exact Cpu.edge_alike hw hs hw' hij m.bus hreset hreset' (by rw [hsettled]; rfl)

variable (m : Computer) (v w : Nat → Inputs)

def Ends (n : Nat) : Prop :=
  (m.follow w n).cpu.state.step ≠ 0 ∧ (m.follow w (n + 1)).cpu.state.step = 0

instance (n : Nat) : Decidable (m.Ends w n) :=
  inferInstanceAs (Decidable (_ ∧ _))

def nmiBefore : Nat → Bool
  | 0 => m.cpu.state.requests.nmiHeld
  | n + 1 => (w n).nmi

def NmiLatched (n : Nat) : Prop :=
  m.cpu.state.requests.nmi = true ∨ ∃ k ≤ n, m.nmiBefore w k = false ∧ (w k).nmi = true

/-- The choice that is due when edge `n` ends a sequence. -/
def Arbitrated (n : Nat) : Prop :=
  let s := (m.follow w (n + 1)).cpu.state
  let enabled := (w n).irq = true ∧ s.regs.p.interruptDisable = false
  (s.sequence = .nmi ∧ m.NmiLatched w n) ∨
  (s.sequence = .irq ∧ ¬ m.NmiLatched w n ∧ enabled) ∨
  (s.sequence = .instruction ∧ ¬ m.NmiLatched w n ∧ ¬ enabled)

def known : Nat → Requests
  | 0 => m.cpu.state.requests
  | n + 1 => (known n).after (w n)

theorem nmiHeld_known (n : Nat) : (m.known w n).nmiHeld = m.nmiBefore w n := by
  cases n <;> rfl

theorem nmi_known (n : Nat) : (m.known w (n + 1)).nmi = true ↔ m.NmiLatched w n := by
  have hstep (n : Nat) : (m.known w (n + 1)).nmi = true ↔
      (m.known w n).nmi = true ∨ (m.nmiBefore w n = false ∧ (w n).nmi = true) := by
    rw [known, Requests.after, Bool.or_eq_true, Bool.and_eq_true, Bool.not_eq_true',
      nmiHeld_known, and_comm]
  have hall (n : Nat) : (m.known w n).nmi = true ↔
      m.cpu.state.requests.nmi = true ∨
        ∃ k < n, m.nmiBefore w k = false ∧ (w k).nmi = true := by
    induction n with
    | zero => simp [known]
    | succ n ih => rw [hstep, ih, or_assoc, Nat.exists_lt_succ_right]
  rw [hall, NmiLatched]
  simp only [Nat.lt_succ_iff]

theorem follow_alike {m : Computer} {v w : Nat → Inputs} (hm : m.cpu.Reachable)
    (hs : m.cpu.state.suspended = false) (hvw : ∀ n, (v n).SameButInterrupts (w n))
    (hreset : ∀ n, (v n).reset = false) {n : Nat} (hn : ∀ k < n, ¬ m.Ends v k) :
    (m.follow v n).Alike (m.follow w n) ∧
      (m.follow v n).cpu.state.requests = m.known v n ∧
      (m.follow w n).cpu.state.requests = m.known w n ∧
      (m.follow v n).cpu.state.sequence = m.cpu.state.sequence ∧
      (m.follow v n).cpu.state.suspended = false := by
  induction n with
  | zero => exact ⟨⟨rfl, (Bus.withInputs_inputs m.bus).symm, rfl⟩, rfl, rfl, rfl, hs⟩
  | succ n ih =>
    obtain ⟨ha, hv, hw, hq, hrun⟩ := ih fun k hk => hn k (Nat.lt_succ_of_lt hk)
    obtain ⟨-, hmem, hbus, t, htr, htq, hcase⟩ := edge_alike ha
      (reachable_follow hm v n).wellFormed (reachable_follow hm w n).wellFormed hrun (hvw n)
      (hreset n)
    obtain ⟨ht, hc, -, hsus⟩ | ⟨hk, ht, -⟩ := hcase
    · have hreq : (m.follow w (n + 1)).cpu.state.requests = m.known w (n + 1) := by
        rw [follow_succ, hc, known, hw]
        rfl
      refine ⟨⟨hmem, ?_, ?_⟩, ?_, hreq, ?_, ?_⟩
      · rw [follow_succ, follow_succ, hbus, Bus.inputs_withInputs]
      · rw [hreq, follow_succ, follow_succ, hc, known, hw, Cpu.withRequests, ht]
      · rw [follow_succ, ht, htr, hv, known]
      · rw [follow_succ, ht, htq, hq]
      · rw [follow_succ, ht, hsus]
    · refine absurd ⟨hk, ?_⟩ (hn n (Nat.lt_succ_self n))
      rw [follow_succ, ht, State.step_boundary]

theorem arbitrated_of_boundary {m : Computer} {w : Nat → Inputs} {n : Nat} {t : State}
    (ht : (m.follow w (n + 1)).cpu.state = t.boundary)
    (hr : t.requests = m.known w (n + 1)) : m.Arbitrated w n := by
  have hnmi : t.requests.nmi = true ↔ m.NmiLatched w n := by rw [hr, nmi_known]
  have hirq : t.requests.irq = (w n).irq := by rw [hr]; rfl
  simp only [Arbitrated, ht, State.sequence_boundary, State.regs_boundary]
  by_cases hl : m.NmiLatched w n
  · exact .inl ⟨(State.next_eq_nmi t).2 (hnmi.2 hl), hl⟩
  · have hn : t.requests.nmi = false := Bool.eq_false_iff.2 fun h => hl (hnmi.1 h)
    by_cases he : (w n).irq = true ∧ t.regs.p.interruptDisable = false
    · refine .inr (.inl ⟨?_, hl, he⟩)
      simp [State.next, hn, hirq, he.1, he.2]
    · refine .inr (.inr ⟨(State.next_eq_instruction t).2 ⟨hn, ?_⟩, hl, he⟩)
      rw [hirq, Bool.eq_false_iff]
      simpa using he

/-- Two runs from one state that is neither waiting nor stopped, under waveforms
without reset that differ in the interrupt lines alone: on every edge until a
sequence ends they make the same access and leave the same memories, wires and
processor. Only when the sequence ends do the lines choose what comes next. -/
theorem interrupts_only_arbitrate {m : Computer} {v w : Nat → Inputs} (hm : m.cpu.Reachable)
    (hs : m.cpu.state.suspended = false) (hvw : ∀ n, (v n).SameButInterrupts (w n))
    (hreset : ∀ n, (v n).reset = false) {n : Nat} (hn : ∀ k < n, ¬ m.Ends v k) :
    let a := m.follow v (n + 1)
    let b := m.follow w (n + 1)
    ((m.follow w n).under (w n)).access = ((m.follow v n).under (v n)).access ∧
    b.memories = a.memories ∧
    b.bus = a.bus.withInputs (w n) ∧
    b.cpu = { a.cpu with
      state := { a.cpu.state with
        requests := b.cpu.state.requests
        sequence := b.cpu.state.sequence
        paused := b.cpu.state.paused } } ∧
    (¬ m.Ends v n →
      a.cpu.state.sequence = m.cpu.state.sequence ∧
      b.cpu.state.sequence = m.cpu.state.sequence ∧
      a.cpu.state.paused = false ∧ b.cpu.state.paused = false) ∧
    (m.Ends v n → m.Arbitrated v n ∧ m.Arbitrated w n) := by
  obtain ⟨ha, hv, hw, hq, hrun⟩ := follow_alike hm hs hvw hreset hn
  obtain ⟨hacc, hmem, hbus, t, htr, htq, hcase⟩ := edge_alike ha
    (reachable_follow hm v n).wellFormed (reachable_follow hm w n).wellFormed hrun (hvw n)
    (hreset n)
  refine ⟨hacc, hmem, hbus, ?_⟩
  obtain ⟨ht, hc, hstep, hsus⟩ | ⟨hk, ht, hc⟩ := hcase
  · have hpaused := (Bool.or_eq_false_iff.1 hsus).2
    simp only [follow_succ, hc, ht]
    refine ⟨rfl, fun _ => ⟨htq.trans hq, htq.trans hq, hpaused, hpaused⟩, fun hend => ?_⟩
    refine absurd (hstep ?_) hend.1
    rw [← ht]
    exact hend.2
  · have hend : m.Ends v n := ⟨hk, by rw [follow_succ, ht, State.step_boundary]⟩
    refine ⟨?_, fun h => absurd hend h, fun _ => ⟨?_, ?_⟩⟩
    · simp only [follow_succ, hc, ht, State.boundary_eq]
      rfl
    · refine arbitrated_of_boundary (t := t) ?_ ?_
      · rw [follow_succ, ht]
      · rw [htr, hv, known]
    · let r := (m.follow w n).cpu.state.requests.after (w n)
      refine arbitrated_of_boundary (t := t.withRequests r) ?_ ?_
      · rw [follow_succ, hc]
      · change (m.follow w n).cpu.state.requests.after (w n) = _
        rw [hw, known]

/-- The reset sequence ends on its seventh edge: under a quiet waveform an
instruction follows, and with the non-maskable line low its service. -/
theorem interrupts_only_arbitrate_reset :
    let m := powerOn .standard []
    let v : Nat → Inputs := fun _ => .quiet
    let w : Nat → Inputs := fun _ => { Inputs.quiet with nmi := true }
    (∀ k < 6, ¬ m.Ends v k) ∧ m.Ends v 6 ∧ m.Arbitrated v 6 ∧ m.Arbitrated w 6 ∧
    (m.follow v 7).cpu.state.sequence = .instruction ∧
    (m.follow w 7).cpu.state.sequence = .nmi ∧
    (m.follow w 7).cpu.state.regs = (m.follow v 7).cpu.state.regs := by
  intro m v w
  have hn : ∀ k < 6, ¬ m.Ends v k := by decide +kernel
  have hend : m.Ends v 6 := by decide +kernel
  obtain ⟨-, -, -, hcpu, -, harb⟩ := interrupts_only_arbitrate (m := m) (v := v) (w := w)
    (.powerOn _) rfl (fun _ => rfl) (fun _ => rfl) hn
  refine ⟨hn, hend, (harb hend).1, (harb hend).2, by decide +kernel, by decide +kernel, ?_⟩
  rw [hcpu]

end Computer

end Cmos6502
