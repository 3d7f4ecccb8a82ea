import Cmos6502.Proofs.Isolation
import Cmos6502.Proofs.ResetCounter
import Cmos6502.Proofs.SharedBus

namespace Cmos6502

def Inputs.stalled (i : Inputs) : Inputs := { i with ready := false }

namespace State

variable (s : State) (bus : Bus)

theorem sample_sample : (s.sample bus).sample bus = s.sample bus := by
  simp [sample]

/-- A line that has been low when the latch was used up does not fall again. -/
theorem sample_boundary_sample :
    let t := { s.sample bus with paused := false }.boundary
    t.sample bus = t := by
  intro t
  have ht : t = { s.sample bus with paused := false }.boundary := rfl
  rw [boundary_eq] at ht
  rw [ht]
  simp [sample]

theorem sample_wake_sample : (s.sample bus).wake.sample bus = (s.sample bus).wake := by
  rw [wake]
  split
  · exact sample_boundary_sample s bus
  · exact sample_sample s bus

theorem wakes_wake : s.wake.wakes = false := by
  rw [wake]
  split
  · rw [wakes, paused_boundary, Bool.false_and, Bool.false_and]
  · next h => exact Bool.eq_false_iff.2 h

theorem wake_wake : s.wake.wake = s.wake := by
  rw [wake, wakes_wake, if_neg Bool.false_ne_true]

theorem stopped_wake : s.wake.stopped = s.stopped := by
  rw [wake]
  split
  · rw [stopped_boundary]
  · rfl

/-- To look at the same lines again tells the processor nothing new, even when
the first look has ended a wait. -/
theorem watch_watch : (s.watch bus).watch bus = s.watch bus := by
  by_cases hs : s.stopped = true
  · have hw : s.watch bus = s := if_pos hs
    rw [hw, hw]
  · have hw : s.watch bus = (s.sample bus).wake := if_neg hs
    have hs' : ¬ (s.watch bus).stopped = true := by
      rw [hw, stopped_wake]
      exact hs
    rw [watch, if_neg hs', hw, sample_wake_sample, wake_wake]

end State

namespace Cpu

variable {c : Cpu} {bus : Bus}

theorem drive_of_suspended (h : (c.state.watch bus).suspended = true) :
    c.drive bus = (c.idles (c.state.watch bus), bus.releaseStatus) := by
  simp only [drive, h, if_true]
  rfl

theorem drive_of_watched {s : State} (h : s.watch bus = c.state.watch bus) :
    (c.idles s).drive bus = c.drive bus := by
  simp only [drive, idles, h]

theorem drive_after_stalled (c : Cpu) (bus : Bus) (i : Inputs) :
    let b := bus.withInputs i.stalled
    let s := c.state.watch b
    (c.idles s).drive ((if s.suspended then b.releaseStatus else b).withInputs i) =
      c.drive (bus.withInputs i) := by
  intro b s
  have hwatch : s.watch b = s := State.watch_watch c.state b
  split
  · next hs =>
    have hs' : (c.state.watch (bus.withInputs i)).suspended = true := hs
    have hr : (c.state.watch (b.releaseStatus.withInputs i)).suspended = true := hs
    have hw : s.watch (b.releaseStatus.withInputs i) =
        c.state.watch (b.releaseStatus.withInputs i) := hwatch
    rw [drive_of_watched hw, drive_of_suspended hr, drive_of_suspended hs']
    rfl
  · have hw : s.watch (b.withInputs i) = c.state.watch (b.withInputs i) := hwatch
    exact drive_of_watched hw

end Cpu

namespace Computer

/-- The same parts on the same wires; the number of edges so far may differ. -/
def Same (m m' : Computer) : Prop := m.chips = m'.chips ∧ m.bus = m'.bus

theorem Same.refl (m : Computer) : m.Same m := ⟨rfl, rfl⟩

theorem Same.trans {m m' m'' : Computer} (h : m.Same m') (h' : m'.Same m'') : m.Same m'' :=
  ⟨h.1.trans h'.1, h.2.trans h'.2⟩

theorem Same.edge {m m' : Computer} (h : m.Same m') (i : Inputs) :
    (m.under i).edge.computer.Same (m'.under i).edge.computer ∧
      (m.under i).access = (m'.under i).access := by
  obtain ⟨chips, bus, edges⟩ := m
  obtain ⟨chips', bus', edges'⟩ := m'
  obtain ⟨rfl, rfl⟩ := h
  exact ⟨⟨rfl, rfl⟩, rfl⟩

def play (m : Computer) (is : List Inputs) : Computer :=
  is.foldl (fun m i => (m.under i).edge.computer) m

def accesses : Computer → List Inputs → List (MicroOp × Transfer)
  | _, [] => []
  | m, i :: is => (m.under i).access.toList ++ accesses (m.under i).edge.computer is

theorem play_cons (m : Computer) (i : Inputs) (is : List Inputs) :
    m.play (i :: is) = (m.under i).edge.computer.play is := rfl

theorem play_append (m : Computer) (is js : List Inputs) :
    m.play (is ++ js) = (m.play is).play js :=
  List.foldl_append

theorem reachable_play {m : Computer} (h : m.cpu.Reachable) (is : List Inputs) :
    (m.play is).cpu.Reachable := by
  induction is generalizing m with
  | nil => exact h
  | cons i is ih =>
    apply ih
    rw [cpu_edge]
    exact h.edge _ _

theorem accesses_append (m : Computer) (is js : List Inputs) :
    m.accesses (is ++ js) = m.accesses is ++ (m.play is).accesses js := by
  induction is generalizing m with
  | nil => rfl
  | cons i is ih => rw [List.cons_append, accesses, accesses, ih, List.append_assoc, play_cons]

theorem Same.play {m m' : Computer} (h : m.Same m') (is : List Inputs) :
    (m.play is).Same (m'.play is) ∧ m.accesses is = m'.accesses is := by
  induction is generalizing m m' with
  | nil => exact ⟨h, rfl⟩
  | cons i is ih =>
    obtain ⟨he, ha⟩ := h.edge i
    obtain ⟨hp, hs⟩ := ih he
    refine ⟨hp, ?_⟩
    rw [accesses, accesses, ha, hs]

theorem answered_edge (m : Computer) :
    Answered m.edge.computer.memories m.edge.computer.bus := by
  rw [memories_edge, bus_edge]
  exact answered_respond m.memories (m.cpu.drive m.bus).2

variable {m : Computer} {i : Inputs}

theorem edge_stalled (hm : Answered m.memories m.bus) (hi : i.reset = false) :
    let b := m.bus.withInputs i.stalled
    let s := m.cpu.state.watch b
    let e := (m.under i.stalled).edge.computer
    (m.under i.stalled).access = none ∧
    e.cpu = (m.cpu.idles s).withHold 0 ∧ e.memories = m.memories ∧
    e.bus = if s.suspended then b.releaseStatus else b := by
  intro b s e
  have hrun : (m.under i.stalled).cpu.runs (m.under i.stalled).bus = false := by
    rw [Cpu.runs, Bool.and_eq_false_iff]
    exact .inr (Line.asserted_ofAsserted false)
  have hdrive : (m.under i.stalled).cpu.drive (m.under i.stalled).bus =
      (m.cpu.idles s, if s.suspended then b.releaseStatus else b) := Cpu.drive_of_not_runs hrun
  have hans : Answered m.memories (if s.suspended then b.releaseStatus else b) := by
    split <;> exact hm.congr rfl rfl rfl
  have hsettled : (m.under i.stalled).settled =
      if s.suspended then b.releaseStatus else b := by
    rw [settled, hdrive, memories_under]
    exact congrArg Phase.bus hans
  have hreset : (m.under i.stalled).settled.reset.asserted = false :=
    (reset_settled m i.stalled).trans hi
  refine ⟨?_, ?_, ?_, ?_⟩
  · rw [access, hdrive]
    rfl
  · rw [cpu_edge, Cpu.edge_of_not_runs hrun (Cpu.not_recognised_of_released hreset),
      Cpu.countReset, hreset]
    rfl
  · rw [memories_edge, hdrive, memories_under]
    exact congrArg Phase.chip hans
  · rw [bus_edge, hsettled]

theorem edge_after_stalled (hm : Answered m.memories m.bus) (hi : i.reset = false) :
    let e := (m.under i.stalled).edge.computer
    (e.under i).access = (m.under i).access ∧
      (e.under i).edge.computer.Same (m.under i).edge.computer := by
  intro e
  obtain ⟨-, hcpu, hmem, hbus⟩ := edge_stalled hm hi
  have hdrive : (e.under i).cpu.drive (e.under i).bus =
      ((m.cpu.drive (m.bus.withInputs i)).1.withHold 0, (m.cpu.drive (m.bus.withInputs i)).2) := by
    rw [cpu_under, hcpu, bus_under, hbus, Cpu.drive_withHold, Cpu.drive_after_stalled]
  have hsettled : (e.under i).settled = (m.under i).settled := by
    rw [settled, settled, hdrive, memories_under, hmem]
    rfl
  have hreset : (m.under i).settled.reset.asserted = false := (reset_settled m i).trans hi
  have hreset' : (e.under i).settled.reset.asserted = false := (reset_settled e i).trans hi
  have hedge : (e.under i).edge.computer.cpu = (m.under i).edge.computer.cpu := by
    rw [cpu_edge, cpu_edge,
      Cpu.edge_of_not_recognised (Cpu.not_recognised_of_released hreset'),
      Cpu.edge_of_not_recognised (Cpu.not_recognised_of_released hreset),
      Cpu.working, Cpu.working, hdrive, hsettled, Cpu.finish_withHold, Cpu.countReset,
      Cpu.countReset, hreset]
    rfl
  have hmems : (e.under i).edge.computer.memories = (m.under i).edge.computer.memories := by
    rw [memories_edge, memories_edge, hdrive, memories_under, hmem]
    rfl
  refine ⟨?_, Prod.ext hedge hmems, ?_⟩
  · rw [access, hdrive]
    rfl
  · rw [bus_edge, bus_edge, hsettled]

theorem play_waits (hm : Answered m.memories m.bus) (hi : i.reset = false) (k : Nat) :
    let waits := List.replicate k i.stalled ++ [i]
    (m.play waits).Same (m.play [i]) ∧ m.accesses waits = m.accesses [i] := by
  induction k generalizing m with
  | zero => exact ⟨.refl _, rfl⟩
  | succ k ih =>
    obtain ⟨hnone, -⟩ := edge_stalled hm hi
    obtain ⟨hacc, hsame⟩ := edge_after_stalled hm hi
    obtain ⟨hp, ha⟩ := ih (answered_edge (m.under i.stalled))
    refine ⟨hp.trans hsame, ?_⟩
    rw [List.replicate_succ, List.cons_append, accesses, hnone, ha, accesses, accesses, hacc]
    rfl

/-- The wires and the memories are as a clock edge has left them, but for the
levels of the input lines. -/
def Rested (m : Computer) : Prop :=
  ∃ m₀ : Computer, m.memories = m₀.edge.computer.memories ∧
    ∃ i, m.bus = m₀.edge.computer.bus.withInputs i

theorem Rested.answered (h : m.Rested) : Answered m.memories m.bus := by
  obtain ⟨m₀, hmem, j, hbus⟩ := h
  rw [hmem, hbus]
  exact (answered_edge m₀).congr rfl rfl rfl

/-- Each edge after as many waits with its lines as are asked for. -/
def stretched (es : List (Nat × Inputs)) : List Inputs :=
  es.flatMap fun e => List.replicate e.1 e.2.stalled ++ [e.2]

theorem play_stretched (hm : Answered m.memories m.bus) {es : List (Nat × Inputs)}
    (hes : ∀ e ∈ es, e.2.reset = true → e.1 = 0) :
    (m.play (stretched es)).Same (m.play (es.map Prod.snd)) ∧
      m.accesses (stretched es) = m.accesses (es.map Prod.snd) := by
  induction es generalizing m with
  | nil => exact ⟨.refl _, rfl⟩
  | cons e es ih =>
    have hwaits : (m.play (List.replicate e.1 e.2.stalled ++ [e.2])).Same (m.play [e.2]) ∧
        m.accesses (List.replicate e.1 e.2.stalled ++ [e.2]) = m.accesses [e.2] := by
      cases hr : e.2.reset with
      | false => exact play_waits hm hr e.1
      | true =>
        rw [hes e List.mem_cons_self hr]
        exact ⟨.refl _, rfl⟩
    obtain ⟨hsame, hacc⟩ := hwaits
    obtain ⟨hp, ha⟩ := ih (answered_edge (m.under e.2)) fun f hf =>
      hes f (List.mem_cons_of_mem e hf)
    obtain ⟨hp', ha'⟩ := hsame.play (stretched es)
    have hs : stretched (e :: es) =
        (List.replicate e.1 e.2.stalled ++ [e.2]) ++ stretched es := rfl
    have hplain : m.accesses (e.2 :: es.map Prod.snd) =
        m.accesses [e.2] ++ (m.play [e.2]).accesses (es.map Prod.snd) :=
      accesses_append m [e.2] _
    rw [hs, play_append, accesses_append, hacc, ha', List.map_cons, hplain]
    exact ⟨hp'.trans hp, congrArg _ ha⟩

/-- To hold the processor for any number of edges before an edge, with the lines
of that edge, changes neither the accesses of a run nor what the run leaves. -/
theorem waits_invisible (hm : m.Rested) :
    (∀ (k : Nat) (i : Inputs), i.reset = false →
      (m.play (List.replicate k i.stalled ++ [{ i with ready := true }])).Same
        (m.play [{ i with ready := true }])) ∧
    ∀ es : List (Nat × Inputs), (∀ e ∈ es, e.2.reset = true → e.1 = 0) →
      m.accesses (stretched es) = m.accesses (es.map Prod.snd) ∧
        (m.play (stretched es)).Same (m.play (es.map Prod.snd)) := by
  refine ⟨fun k i hi => ?_, fun es hes => ?_⟩
  · exact (play_waits (i := { i with ready := true }) hm.answered hi k).1
  · obtain ⟨hsame, hacc⟩ := play_stretched hm.answered hes
    exact ⟨hacc, hsame⟩

/-- `WAI` in a read-only memory: the non-maskable line falls while the processor
is held, so that the wait ends on an edge without an access. -/
theorem waits_invisible_waking :
    let rom : Memory := ⟨0, 2, #v[0xCB, 0xEA], false, by decide, by decide⟩
    let c := (Cpu.powerOn .standard).startAt .powerOn
    let start : Computer := ⟨(c, [rom]), .quiet, ⟨0⟩⟩
    let m := start.play [.quiet, .quiet, .quiet]
    let es := [(2, { Inputs.quiet with nmi := true }), (1, .quiet)]
    m.cpu.state.paused = true ∧ m.Rested ∧
    m.accesses (stretched es) = [(.dummyProgram, .read 1), (.dummyProgram, .read 1)] ∧
    (m.play (stretched es)).cpu.state.sequence = .nmi ∧
    (m.play (stretched es)).cpu.cycles = 5 := by
  intro rom c start m es
  have hm : m.Rested :=
    ⟨_, rfl, m.bus.inputs, (Bus.withInputs_inputs m.bus).symm⟩
  have hes : ∀ e ∈ es, e.2.reset = true → e.1 = 0 := by decide
  obtain ⟨hacc, hchips, -⟩ := (waits_invisible hm).2 es hes
  have hcpu : (m.play (stretched es)).cpu = (m.play (es.map Prod.snd)).cpu :=
    congrArg Prod.fst hchips
  refine ⟨by decide +kernel, hm, ?_, ?_, ?_⟩
  · rw [hacc]
    decide +kernel
  · rw [hcpu]
    decide +kernel
  · rw [hcpu]
    decide +kernel

end Computer

end Cmos6502
