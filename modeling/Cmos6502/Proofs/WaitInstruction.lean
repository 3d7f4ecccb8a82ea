import Cmos6502.Proofs.Reports
import Cmos6502.Proofs.WaitStates

namespace Cmos6502

def Report.isReleased : Report → Bool
  | .released _ => true
  | _ => false

namespace State

variable (s : State)

theorem released_boundary :
    s.boundaryReports.countP Report.isReleased + s.boundary.paused.toNat = s.paused.toNat := by
  rw [paused_boundary, boundaryReports]
  cases hn : s.next with
  | instruction => simp
  | irq | nmi | reset => cases s.paused <;> rfl

theorem released_advance :
    s.advanceReports.countP Report.isReleased + s.advance.paused.toNat = s.paused.toNat := by
  rw [advanceReports]
  cases hr : s.remaining with
  | nil =>
    rw [advance_of_remaining_nil s hr]
    exact released_boundary s
  | cons op rest =>
    rw [advance_of_remaining_cons s hr]
    exact Nat.zero_add _

theorem released_wake :
    s.wakeReports.countP Report.isReleased + s.wake.paused.toNat = s.paused.toNat := by
  rw [wakeReports, wake]
  cases hw : s.wakes with
  | false => exact Nat.zero_add _
  | true =>
    have hp : s.paused = true := (Bool.and_eq_true_iff.1 hw).1
    have hb := released_boundary { s with paused := false }
    obtain ⟨hzero, hun⟩ := Nat.add_eq_zero_iff.1 hb
    rw [if_pos rfl, if_pos rfl, hp, hun, List.countP_cons, hzero]
    rfl

variable {s}

theorem paused_executed (hs : s.suspended = false) (policy : Policy) (v : Byte) :
    (s.executed policy s.currentOp v).paused =
      (s.currentOp == .executeImplied && s.operation == .implied .wai) := by
  have hp : s.paused = false := (Bool.or_eq_false_iff.1 hs).2
  by_cases hi : s.currentOp = .executeImplied
  · rw [executed_of_executeImplied hi, perform, hp, hi]
    rfl
  · have hkeep := (MicroOp.suspended_complete s.currentOp s v hi).1
    rw [beq_false_of_ne hi, Bool.false_and, ← hp, ← hkeep, executed]
    split <;> rfl

theorem released_finish (policy : Policy) (op : MicroOp) (v : Byte) :
    (s.finishReports policy op v).countP Report.isReleased + (s.finish policy op v).paused.toNat =
      (s.executed policy op v).paused.toNat := by
  have hnone : (s.executedReports policy op v).countP Report.isReleased = 0 := by
    apply List.countP_eq_zero.2
    intro r hr
    obtain rfl | rfl | rfl := mem_executedReports hr <;> exact Bool.false_ne_true
  rw [finishReports, List.countP_append, hnone, Nat.zero_add]
  exact released_advance _

end State

namespace Cpu

variable {c : Cpu} {e : Bus × Bus} {es : List (Bus × Bus)}

/-- On an edge an interrupt is asked for. -/
def asks (c : Cpu) (bus : Bus) : Bool := c.seesFall bus || bus.irq.asserted

def Unasked (c : Cpu) (e : Bus × Bus) : Prop := c.Unreset e ∧ c.asks e.1 = false

def entry (q : Sequence) (r : Registers) (status : Byte) : List (MicroOp × Transfer) :=
  let vector := if q = .nmi then nmiVector else irqVector
  [(.dummyProgram, .read r.pc), (.dummyProgram, .read r.pc),
    (.pushHigh, .write (Registers.inStack r.sp) r.pc.high),
    (.pushLow, .write (Registers.inStack (r.sp - 1)) r.pc.low),
    (.pushStatus false, .write (Registers.inStack (r.sp - 2)) status),
    (.vectorLow vector, .read vector), (.vectorHigh vector, .read (vector + 1))]

/-- The edges make up the entry of an interrupt, which is to return to where `r` stands. -/
def Enters (c : Cpu) (q : Sequence) (r : Registers) (es : List (Bus × Bus)) : Prop :=
  ∃ status, c.accesses es = entry q r status

theorem Spans.enters (h : c.Spans es) (hc : c.Reachable)
    (hs : c.state.suspended = false) (h0 : c.state.step = 0) {q : Sequence}
    (hq : c.state.sequence = q) (hirq : q = .nmi ∨ q = .irq) :
    c.Enters q c.state.regs es := by
  have hne : c.state.sequence ≠ .instruction := by
    rw [hq]
    rintro rfl
    simp at hirq
  obtain ⟨b, l, as, t, -, ha, hp⟩ := h.performs_entry hc hs h0 hne
  have hmode : c.state.mode.microOps = .dummyProgram :: (Mode.pushing false ++
      Mode.vectored (if q = .nmi then nmiVector else irqVector)) := by
    rw [State.mode, hq]
    obtain rfl | rfl := hirq <;> rfl
  rw [hmode] at hp
  obtain ⟨b₁, l₁, as₁, rfl, rfl, h₁⟩ := hp.of_cons rfl
  obtain ⟨b₂, l₂, as₂, rfl, rfl, h₂⟩ := h₁.of_cons rfl
  obtain ⟨b₃, l₃, as₃, rfl, rfl, h₃⟩ := h₂.of_cons rfl
  obtain ⟨b₄, l₄, as₄, rfl, rfl, h₄⟩ := h₃.of_cons rfl
  obtain ⟨b₅, l₅, as₅, rfl, rfl, h₅⟩ := h₄.of_cons rfl
  obtain ⟨b₆, l₆, as₆, rfl, rfl, h₆⟩ := h₅.of_cons rfl
  cases h₆
  have hsp : c.state.regs.sp - 2 = c.state.regs.sp - 1 - 1 := by bv_omega
  rw [Enters, ha]
  simp only [entry, hsp]
  exact ⟨_, rfl⟩

theorem head?_accesses (hc : c.Reachable) (hs : c.state.suspended = false)
    (h0 : c.state.step = 0) (hr : c.Along Unreset es) :
    (c.accesses es).head? =
      if es.any (·.1.ready.asserted) then some (c.state.currentOp, .read c.state.regs.pc)
      else none := by
  induction es generalizing c with
  | nil => rfl
  | cons e es ih =>
    rw [accesses_cons, access_of_running hc.wellFormed.state hs, List.any_cons]
    cases hready : e.1.ready.asserted with
    | false =>
      have hedge := edge_of_held hs hr.1 hready
      have hrest := ih (hc.edge e.1 e.2) (by rw [hedge]; exact hs) (by rw [hedge]; exact h0) hr.2
      rw [hedge] at hrest ⊢
      exact hrest
    | true =>
      have ht := State.transfer_currentOp_of_step_zero (s := c.state.sample e.1) h0
      exact congrArg (fun t => some (c.state.currentOp, t)) ht

theorem state_of_concludes_wai (hw : c.state.WellFormed) (hr : c.recognisesReset e.2 = false)
    (h : c.concludes .wai e.1 = true) :
    let t := (c.edge e.1 e.2).state
    t.sequence = c.choice e.1 ∧ t.paused = decide (c.choice e.1 = .instruction) ∧ t.step = 0 ∧
      t.stopped = false ∧ t.regs = (c.state.sample e.1).regs := by
  intro t
  obtain ⟨-, hs, -, hop⟩ := (concludes_iff hw).1 h
  have hstop : c.state.stopped = false := (Bool.or_eq_false_iff.1 hs).1
  have hperform : (c.state.sample e.1).perform = { c.state.sample e.1 with paused := true } :=
    State.perform_wai hs hop
  have ht : t = ({ c.state.sample e.1 with paused := true } : State).boundary.withHold
      (c.countReset e.2) := by
    rw [← hperform]
    exact congrArg Cpu.state (edge_of_concludes hw hr h)
  rw [ht, State.boundary_eq, ← sample_next hstop]
  exact ⟨rfl, rfl, rfl, hstop, rfl⟩

section Waiting

variable (hc : c.Reachable) (hp : c.state.paused = true)
include hc hp

theorem wakes_eq_asks (bus : Bus) : (c.state.sample bus).wakes = c.asks bus := by
  obtain ⟨-, -, hnmi, hstop⟩ := hc.wellFormed.state.waiting hp
  change (c.state.paused && ((c.state.requests.nmi || _) || _)) = _
  rw [hp, hnmi, asks, seesFall, hstop]
  rfl

theorem watch_of_unasked {bus : Bus} (ha : c.asks bus = false) :
    c.state.watch bus = c.state.sample bus := by
  obtain ⟨-, -, -, hstop⟩ := hc.wellFormed.state.waiting hp
  rw [State.watch, hstop, State.wake, wakes_eq_asks hc hp, ha]
  rfl

theorem edge_of_unasked (hr : c.recognisesReset e.2 = false) (ha : c.asks e.1 = false) :
    c.Idle e ∧ c.edge e.1 e.2 = c.idles ((c.state.sample e.1).withHold (c.countReset e.2)) := by
  have hwatch := watch_of_unasked hc hp ha
  have hsus : (c.state.watch e.1).suspended = true := by
    rw [hwatch]
    exact Bool.or_eq_true_iff.2 (.inr hp)
  have hrun : c.runs e.1 = false := by rw [runs, hsus]; rfl
  refine ⟨idle_of_suspended hr hsus fun _ => (wakes_eq_asks hc hp e.1).trans ha, ?_⟩
  rw [edge_of_not_runs hrun hr, hwatch]

theorem after_unasked
    (hes : c.Along Unasked es) :
    c.Along Idle es ∧ (c.after es).state.paused = true ∧ (c.after es).cycles = c.cycles ∧
      (c.after es).state.regs = (c.state.raise (es.any (·.1.setOverflow.asserted))).regs := by
  induction es generalizing c with
  | nil => exact ⟨trivial, hp, rfl, by rw [List.any_nil, State.raise_false]; rfl⟩
  | cons e es ih =>
    obtain ⟨hidle, hedge⟩ := edge_of_unasked hc hp hes.1.1 hes.1.2
    have hp' : (c.edge e.1 e.2).state.paused = true := by
      rw [hedge]
      exact hp
    obtain ⟨hall, hpaused, hcycles, hregs⟩ := ih (hc.edge e.1 e.2) hp' hes.2
    refine ⟨⟨hidle, hall⟩, hpaused, hcycles.trans ?_, hregs.trans ?_⟩
    · rw [hedge]
      rfl
    · rw [List.any_cons, ← State.raise_raise, hedge]
      rfl

theorem woken (ha : c.asks e.1 = true) :
    let d := c.idles (c.state.watch e.1)
    d.Reachable ∧ d.state.suspended = false ∧ d.state.step = 0 ∧
      d.state.sequence = c.choice e.1 ∧ d.state.regs = (c.state.sample e.1).regs := by
  intro d
  obtain ⟨-, -, -, hstop⟩ := hc.wellFormed.state.waiting hp
  have hwatch : d.state = ({ c.state.sample e.1 with paused := false } : State).boundary := by
    change c.state.watch e.1 = _
    rw [State.watch, hstop, State.wake, wakes_eq_asks hc hp, ha]
    rfl
  -- what the watch leaves is reachable, for an edge without ready does nothing but watch
  have hreach : d.Reachable := by
    let held : Bus := { e.1 with ready := .released }
    have hrun : c.runs held = false := Bool.and_eq_false_iff.2 (.inr rfl)
    have hheld := Reachable.drive held hc
    rwa [drive_of_not_runs hrun] at hheld
  rw [hwatch, State.step_boundary, State.sequence_boundary, State.regs_boundary,
    ← sample_next hstop]
  refine ⟨hreach, ?_, rfl, rfl, rfl⟩
  rw [State.boundary_eq]
  exact Bool.or_eq_false_iff.2 ⟨hstop, rfl⟩

end Waiting

theorem drive_idles_watch (c : Cpu) (bus : Bus) :
    (c.idles (c.state.watch bus)).drive bus = c.drive bus :=
  drive_of_watched (State.watch_watch c.state bus)

theorem edge_idles_watch (c : Cpu) (bus settled : Bus) :
    (c.idles (c.state.watch bus)).edge bus settled = c.edge bus settled := by
  rw [edge, drive_idles_watch]
  rfl

theorem accesses_idles_watch (c : Cpu) (e : Bus × Bus) (es : List (Bus × Bus)) :
    (c.idles (c.state.watch e.1)).accesses (e :: es) = c.accesses (e :: es) := by
  rw [accesses_cons, accesses_cons, access, drive_idles_watch, edge_idles_watch]
  rfl

theorem released_edge (hc : c.Reachable) (hr : c.recognisesReset e.2 = false) :
    (c.edgeReports e).countP Report.isReleased + (c.edge e.1 e.2).state.paused.toNat =
      c.state.paused.toNat + (c.concludes .wai e.1).toNat := by
  have hw := hc.wellFormed.state
  let s := c.state.watch e.1
  have hdrive : (c.driveReports e.1).countP Report.isReleased + s.paused.toNat =
      c.state.paused.toNat := by
    rw [driveReports_eq hw]
    split
    · next hs =>
      have hwatch : s = c.state := if_pos hs
      rw [hwatch]
      exact Nat.zero_add _
    · next hs =>
      have hwatch : s = (c.state.sample e.1).wake := if_neg hs
      rw [hwatch]
      exact State.released_wake (c.state.sample e.1)
  have hlatch : ((c.drive e.1).1.finishReports e.2).countP Report.isReleased +
      (c.edge e.1 e.2).state.paused.toNat = s.paused.toNat + (c.concludes .wai e.1).toNat := by
    cases hrun : c.runs e.1 with
    | false =>
      rw [edge_of_not_runs hrun hr, concludes, access_of_not_runs hrun, drive_of_not_runs hrun]
      exact Nat.zero_add _
    | true =>
      have hs : s.suspended = false := by
        have := (Bool.and_eq_true_iff.1 hrun).1
        rwa [Bool.not_eq_true'] at this
      have hp : s.paused = false := (Bool.or_eq_false_iff.1 hs).2
      have hop : s.operation = c.state.operation :=
        congrArg Instruction.operation (State.instruction_watch c.state e.1)
      have hend := State.paused_executed hs c.config.policy (received (s.currentOp.transfer s) e.2)
      have hcount := State.released_finish (s := s) c.config.policy s.currentOp
        (received (s.currentOp.transfer s) e.2)
      rw [hend, hop] at hcount
      rw [edge_of_runs hw hrun hr, concludes, access_of_runs hw hrun, drive_of_runs hw hrun, hp]
      exact hcount.trans (Nat.zero_add _).symm
  rw [edgeReports, latchReports_drive hr, List.countP_append]
  omega

theorem released_reports (hc : c.Reachable)
    (hr : c.Along Unreset es) :
    (c.reports es).countP Report.isReleased + (c.after es).state.paused.toNat =
      c.state.paused.toNat + c.tally (fun d e => d.concludes .wai e.1) es := by
  induction es generalizing c with
  | nil => exact Nat.zero_add _
  | cons e es ih =>
    have hstep := released_edge hc hr.1
    have hrun := ih (hc.edge e.1 e.2) hr.2
    rw [reports, List.countP_append, tally]
    change _ + ((c.edge e.1 e.2).after es).state.paused.toNat = _
    omega

theorem sequence_edge_of_step_zero (hc : c.Reachable) (hs : c.state.suspended = false)
    (h0 : c.state.step = 0) (hr : c.recognisesReset e.2 = false) :
    (c.edge e.1 e.2).state.suspended = false ∧
      (c.edge e.1 e.2).state.sequence = c.state.sequence := by
  cases hready : e.1.ready.asserted with
  | false =>
    obtain ⟨-, hseq, -, hsus⟩ := state_edge_of_held hs hr hready
    exact ⟨hsus, hseq⟩
  | true =>
    obtain ⟨-, hseq, hstep⟩ := state_edge_of_ready hc.wellFormed.state hs hr hready h0
    refine ⟨?_, hseq⟩
    apply (hc.edge e.1 e.2).wellFormed.state.running
    rw [hstep]
    exact Nat.succ_ne_zero 0

theorem wake (hc : c.Reachable) (hp : c.state.paused = true)
    (hr : c.recognisesReset e.2 = false) (ha : c.asks e.1 = true) :
    let q := c.choice e.1
    let d := c.edge e.1 e.2
    d.state.paused = false ∧ d.state.sequence = q ∧
      (∀ es, d.Along Unreset es →
        (c.accesses (e :: es)).head? = if (e :: es).any (·.1.ready.asserted) then
          some (if q = .instruction then .fetchOpcode else .dummyProgram, .read c.state.regs.pc)
        else none) ∧
      (q ≠ .instruction → ∀ es, c.Spans (e :: es) → c.Enters q c.state.regs (e :: es)) := by
  intro q d
  -- from this edge on the run is that of a processor that has not been waiting
  let b := c.idles (c.state.watch e.1)
  obtain ⟨hreach, hs, h0, hq, hregs⟩ : b.Reachable ∧ b.state.suspended = false ∧
    b.state.step = 0 ∧ b.state.sequence = q ∧ b.state.regs = (c.state.sample e.1).regs :=
    woken hc hp ha
  have hedge : b.edge e.1 e.2 = d := edge_idles_watch c e.1 e.2
  have hreset : b.recognisesReset e.2 = false := by
    have hhold : b.state.resetHold = c.state.resetHold := State.resetHold_watch c.state e.1
    rw [recognisesReset, hhold]
    exact hr
  have hpc : b.state.regs.pc = c.state.regs.pc := by
    rw [hregs]
    rfl
  obtain ⟨hsus, hseq⟩ := sequence_edge_of_step_zero hreach hs h0 hreset
  rw [hedge] at hsus hseq
  refine ⟨(Bool.or_eq_false_iff.1 hsus).2, hseq.trans hq, fun es hes => ?_, fun hne es hspan => ?_⟩
  · have hall : b.Along Unreset (e :: es) := by
      refine ⟨hreset, ?_⟩
      rwa [hedge]
    have hfirst := head?_accesses hreach hs h0 hall
    rwa [accesses_idles_watch, State.currentOp_of_step_zero _ h0, hq, hpc] at hfirst
  · have hzero : c.state.step = 0 := (hc.wellFormed.state.waiting hp).1
    have hrest : d.Spans es := ((spans_cons (returns_of_step_zero hzero e)).1 hspan).2
    have hspan' : b.Spans (e :: es) := by
      refine (spans_cons (returns_of_step_zero h0 e)).2 ⟨hreset, ?_⟩
      rwa [hedge]
    obtain ⟨status, hentry⟩ :=
      hspan'.enters hreach hs h0 hq (arbitrated_of_ne hne)
    rw [accesses_idles_watch, hregs] at hentry
    exact ⟨status, hentry⟩

theorem conclude_wai (hc : c.Reachable) (hr : c.recognisesReset e.2 = false)
    (h : c.concludes .wai e.1 = true) :
    let q := c.choice e.1
    let d := c.edge e.1 e.2
    d.state.sequence = q ∧ d.state.paused = decide (q = .instruction) ∧
      d.state.regs.pc = c.state.regs.pc ∧
      (q ≠ .instruction → ∀ es, d.Spans es → d.Enters q c.state.regs es) := by
  intro q d
  obtain ⟨hseq, hpaused, hstep, hstop, hregs⟩ := state_of_concludes_wai hc.wellFormed.state hr h
  have hpc : d.state.regs.pc = c.state.regs.pc := by
    rw [hregs]
    rfl
  refine ⟨hseq, hpaused, hpc, fun hne es hspan => ?_⟩
  have hsus : d.state.suspended = false := by
    rw [State.suspended, hstop, hpaused, decide_eq_false hne]
    rfl
  obtain ⟨status, hentry⟩ :=
    hspan.enters (hc.edge e.1 e.2) hsus hstep hseq (arbitrated_of_ne hne)
  rw [hregs] at hentry
  exact ⟨status, hentry⟩

/-- `WAI` waits for an interrupt, and for nothing else. Its last edge enters an interrupt that
is there already, and otherwise leaves the processor waiting in front of the next instruction.
There it rests until an interrupt is asked for, and goes on from that very edge: with the
interrupt, whose entry pushes the address of that instruction, or, if it is masked, with the
instruction itself. As many releases are told as waits are over. -/
theorem waits_and_wakes (hc : c.Reachable) :
    (∀ e : Bus × Bus, c.Unreset e → c.concludes .wai e.1 = true →
      let q := arbitrated (c.state.requests.nmi || c.seesFall e.1) e.1.irq.asserted
        c.state.regs.p.interruptDisable
      let d := c.edge e.1 e.2
      d.state.sequence = q ∧ d.state.paused = decide (q = .instruction) ∧
        d.state.regs.pc = c.state.regs.pc ∧
        (q ≠ .instruction → ∀ es, d.Spans es → d.Enters q c.state.regs es)) ∧
    (c.state.suspended = false → c.state.step = 0 → c.state.sequence = .instruction →
      ∀ es, c.Spans es → heard (beats false es) 0 = 0xCB →
        ∃ es' e, es = es' ++ [e] ∧
          let d := c.after es'
          d.Unreset e ∧ d.concludes .wai e.1 = true ∧
            d.state.regs.pc = c.state.regs.pc + 1 ∧
            d.state.regs.p.interruptDisable = c.state.regs.p.interruptDisable) ∧
    (c.state.paused = true → ∀ es, c.Along Unasked es →
      let d := c.after es
      c.Along Idle es ∧ d.state.paused = true ∧ d.cycles = c.cycles ∧
        d.state.regs = (c.state.raise (es.any (·.1.setOverflow.asserted))).regs ∧
        ∀ e : Bus × Bus, d.Unreset e → d.asks e.1 = true →
          let q := arbitrated (d.seesFall e.1) e.1.irq.asserted c.state.regs.p.interruptDisable
          let t := d.edge e.1 e.2
          let first := if q = .instruction then .fetchOpcode else .dummyProgram
          t.state.paused = false ∧ t.state.sequence = q ∧
            (∀ fs, t.Along Unreset fs →
              (d.accesses (e :: fs)).head? = if (e :: fs).any (·.1.ready.asserted)
                then some (first, .read c.state.regs.pc) else none) ∧
            (q ≠ .instruction → ∀ fs, d.Spans (e :: fs) → d.Enters q c.state.regs (e :: fs))) ∧
    ∀ es, c.Along Unreset es →
      (c.reports es).countP Report.isReleased + (c.after es).state.paused.toNat =
        c.state.paused.toNat + c.tally (fun d e => d.concludes .wai e.1) es := by
  refine ⟨fun e hr h => conclude_wai hc hr h, ?fetched, ?waiting, fun es hr => released_reports hc hr⟩
  case fetched =>
    intro hs h0 hq es hspan hop
    obtain ⟨es', e, rfl, hwithin, hconc, hr⟩ := hspan.concludes hc hs h0 hq hop rfl
    exact ⟨es', e, rfl, hr, hconc, hwithin.pc, hwithin.masked⟩
  case waiting =>
    intro hp es hes d
    obtain ⟨hidle, hpaused, hcycles, hregs⟩ := after_unasked hc hp hes
    have hd : d.Reachable := hc.after es
    refine ⟨hidle, hpaused, hcycles, hregs, fun e hr ha => ?_⟩
    have hnmi : d.state.requests.nmi = false := (hd.wellFormed.state.waiting hpaused).2.2.1
    have hchoice : d.choice e.1 = arbitrated (d.seesFall e.1) e.1.irq.asserted
        c.state.regs.p.interruptDisable := by
      rw [choice, hnmi, hregs, Bool.false_or]
      rfl
    have hwake := wake hd hpaused hr ha
    rw [hchoice, hregs] at hwake
    exact hwake

/-- A wait in front of a page boundary that ends while the processor is held: the entry
pushes the address behind the boundary, and one release is told. -/
theorem waits_and_wakes_held :
    let r := { Registers.powerOn with pc := 0x80FF, sp := 0x00 }
    let c := (powerOn .standard).startAt r
    let wai : Bus := { Bus.quiet with data := 0xCB }
    let low : Bus := { Bus.quiet with nmi := .held }
    let held : Bus := { low with ready := .released }
    let waiting := List.replicate 3 (wai, wai)
    let waking := (held, held) :: List.replicate 7 (low, low)
    let d := c.after waiting
    d.state.paused = true ∧ d.Enters .nmi { r with pc := 0x8100 } waking ∧
      (c.reports (waiting ++ waking)).countP Report.isReleased = 1 := by
  intro r c wai low held waiting waking d
  have hc : c.Reachable := .startAt _ (.powerOn _)
  have hd : d.Reachable := hc.after waiting
  have hp : d.state.paused = true := by decide +kernel
  have hregs : d.state.regs = { r with pc := 0x8100 } := by decide +kernel
  have hspan : d.Spans waking := by decide +kernel
  have hfall : d.seesFall held = true := by decide +kernel
  have hend : (c.after (waiting ++ waking)).state.paused = false := by decide +kernel
  have hcount : c.tally (fun d e => d.concludes .wai e.1) (waiting ++ waking) = 1 := by
    decide +kernel
  have hstart : c.state.paused = false := rfl
  have hall : ∀ e ∈ waiting ++ waking, e.2.reset.asserted = false := by decide
  obtain ⟨-, -, -, htold⟩ := waits_and_wakes hc
  have hsum := htold (waiting ++ waking) (along_unreset hall)
  rw [hend, hcount, hstart, Bool.toNat_false, Nat.add_zero, Nat.zero_add] at hsum
  clear_value d
  have hasks : d.asks held = true := by rw [asks, hfall, Bool.true_or]
  obtain ⟨-, -, hwait, -⟩ := waits_and_wakes hd
  obtain ⟨-, -, -, -, hwake⟩ := hwait hp [] trivial
  obtain ⟨-, -, -, hentry⟩ := hwake (held, held) (not_recognised_of_released rfl) hasks
  have hnil : d.after [] = d := rfl
  rw [hnil, hfall, hregs] at hentry
  exact ⟨hp, hentry (by decide) _ hspan, hsum⟩

end Cpu

end Cmos6502
