import Cmos6502.Proofs.StatusLines
import Cmos6502.Proofs.WaitStates

namespace Cmos6502

/-- The status lines describe the cycle that the processor stands at. -/
structure Status.Describes (shown : Status) (s : State) : Prop where
  sync : shown.sync = true ↔ s.sequence = .instruction ∧ s.step = 0
  vectorPull : shown.vectorPull = true ↔
    ∃ v, s.currentOp = .vectorLow v ∨ s.currentOp = .vectorHigh v
  memoryLock : shown.memoryLock = true ↔
    s.mode.readsThenWrites = true ∧ 0 < s.step ∧ s.mode.cycles ≤ s.step + 3

namespace MicroOp

/-- A cycle of this kind is the last of its sequence. -/
def Closes (op : MicroOp) : Prop := op = .writeLatched ∨ ∃ v, op = .vectorHigh v

theorem Closes.ne_fetchOpcode {op : MicroOp} (h : op.Closes) : op ≠ .fetchOpcode := by
  obtain rfl | ⟨v, rfl⟩ := h <;> exact MicroOp.noConfusion

end MicroOp

namespace Mode

variable {m : Mode} {op : MicroOp} {k : Nat}

theorem notMem_dropLast_of_closes (h : op.Closes) : op ∉ m.microOps.dropLast := by
  obtain rfl | ⟨v, rfl⟩ := h
  all_goals
    cases m with
    | memory form use =>
      cases form <;> cases use <;> simp [microOps, Form.addressing, Use.transfer]
    | _ => simp [microOps, branching, pushing, vectored]

theorem length_of_closes (h : op.Closes) (hk : m.microOps[k]? = some op) :
    m.microOps.length = k + 1 := by
  obtain ⟨hlt, hop⟩ := List.getElem?_eq_some_iff.1 hk
  by_contra hne
  have hlt' : k < m.microOps.dropLast.length := by
    rw [List.length_dropLast]
    omega
  apply notMem_dropLast_of_closes h (m := m)
  rw [← hop, ← List.getElem_dropLast hlt']
  exact List.getElem_mem hlt'

theorem readsThenWrites_of_mem (h : .writeLatched ∈ m.microOps) : m.readsThenWrites = true := by
  cases m with
  | memory form use =>
    cases use with
    | modify => rfl
    | read | write => cases form <;> simp [microOps, Form.addressing, Use.transfer] at h
  | _ => simp [microOps, branching, pushing, vectored] at h

end Mode

namespace State

variable {s : State}

def status (s : State) : Status := s.mode.status s.currentOp

theorem describes_iff (h : s.WellFormed) {shown : Status} :
    shown.Describes s ↔ shown = s.status := by
  have hsync : s.status.sync = true ↔ s.sequence = .instruction ∧ s.step = 0 := by
    rw [status, Mode.status, decide_eq_true_eq, currentOp_eq_fetchOpcode, and_comm]
  have hvector : s.status.vectorPull = true ↔
      ∃ v, s.currentOp = .vectorLow v ∨ s.currentOp = .vectorHigh v :=
    s.currentOp.pullsVector_iff
  have hlock : s.status.memoryLock = true ↔
      s.mode.readsThenWrites = true ∧ 0 < s.step ∧ s.mode.cycles ≤ s.step + 3 := by
    rw [status, Mode.status, ← locksMemory_eq h, locksMemory, Bool.and_eq_true, Bool.and_eq_true,
      decide_eq_true_eq, decide_eq_true_eq, and_assoc, and_left_comm]
  constructor
  · intro hd
    have h₁ := Bool.eq_iff_iff.2 (hd.sync.trans hsync.symm)
    have h₂ := Bool.eq_iff_iff.2 (hd.vectorPull.trans hvector.symm)
    have h₃ := Bool.eq_iff_iff.2 (hd.memoryLock.trans hlock.symm)
    cases shown
    exact congr (congr (congrArg Status.mk h₁) h₂) h₃
  · rintro rfl
    exact ⟨hsync, hvector, hlock⟩

theorem status_eq_iff {t : State} (h : s.WellFormed) (h' : t.WellFormed) : s.status = t.status ↔
    (s.currentOp = .fetchOpcode ↔ t.currentOp = .fetchOpcode) ∧
      s.currentOp.pullsVector = t.currentOp.pullsVector ∧ s.locksMemory = t.locksMemory := by
  rw [locksMemory_eq h, locksMemory_eq h']
  simp only [status, Mode.status, Status.mk.injEq, decide_eq_decide]

theorem step_ne_zero_of_closes (h : s.currentOp.Closes) : s.step ≠ 0 := by
  intro h0
  rw [currentOp_of_step_zero s h0] at h
  split at h
  · exact h.ne_fetchOpcode rfl
  · obtain h | ⟨v, h⟩ := h <;> cases h

theorem memoryLock_of_writeLatched (hw : s.WellFormed) (h : s.currentOp = .writeLatched) :
    s.status.memoryLock = true := by
  have hmode : s.mode.readsThenWrites = true := by
    obtain ⟨k, hk⟩ := Nat.exists_eq_succ_of_ne_zero (step_ne_zero_of_closes (.inl h))
    apply Mode.readsThenWrites_of_mem
    rw [← h]
    exact List.mem_of_getElem? (currentOp_mem_microOps s hk hw.step_lt)
  rw [status, Mode.status, hmode, h]
  rfl

theorem step_cycle_of_fetch (h : s.currentOp = .fetchOpcode) (policy : Policy) (settled : Bus) :
    (s.cycle policy settled).step = 1 := by
  have h0 : (s.executed policy s.currentOp
      (Cpu.received (s.currentOp.transfer s) settled)).step = 0 := by
    rw [step_executed, ((currentOp_eq_fetchOpcode s).1 h).1]
  rw [cycle, finish, advance_of_step_zero _ h0]
  rfl

theorem step_cycle_of_closes (hw : s.WellFormed) (h : s.currentOp.Closes) (policy : Policy)
    (settled : Bus) : (s.cycle policy settled).step = 0 := by
  obtain ⟨k, hk⟩ := Nat.exists_eq_succ_of_ne_zero (step_ne_zero_of_closes h)
  have hlen := Mode.length_of_closes h (currentOp_mem_microOps s hk hw.step_lt)
  have hnil : (s.executed policy s.currentOp
      (Cpu.received (s.currentOp.transfer s) settled)).remaining = [] := by
    rw [executed, if_neg h.ne_fetchOpcode, remaining, MicroOp.mode_complete,
      MicroOp.step_complete, hk, List.drop_eq_nil_of_le (Nat.le_of_eq hlen)]
    rfl
  rw [cycle, finish, advance_of_remaining_nil _ hnil, step_boundary]

/-- The processor stands where it stood, or at the beginning of a reset. -/
structure Stands (s t : State) : Prop where
  running : t.suspended = false
  place : t.sequence = s.sequence ∧ t.step = s.step ∨ t.sequence = .reset ∧ t.step = 0

theorem Stands.trans {t u : State} (h : s.Stands t) (h' : t.Stands u) : s.Stands u := by
  refine ⟨h'.running, ?_⟩
  obtain ⟨hq, hk⟩ | hreset := h'.place
  · rw [hq, hk]
    exact h.place
  · exact .inr hreset

theorem Stands.of_fetchOpcode {t : State} (h : s.Stands t) (ht : t.currentOp = .fetchOpcode) :
    s.currentOp = .fetchOpcode := by
  obtain ⟨hk, hq⟩ := (currentOp_eq_fetchOpcode t).1 ht
  obtain ⟨hq', hk'⟩ | ⟨hq', -⟩ := h.place
  · exact (currentOp_eq_fetchOpcode s).2 ⟨hk'.symm.trans hk, hq'.symm.trans hq⟩
  · rw [hq'] at hq
    cases hq

theorem Stands.step_eq_zero {t : State} (h : s.Stands t) (h0 : s.step = 0) : t.step = 0 := by
  obtain ⟨-, hk⟩ | ⟨-, hk⟩ := h.place
  · exact hk.trans h0
  · exact hk

end State

namespace Cpu

variable {c : Cpu} {bus settled : Bus}

theorem stands_of_held (hs : c.state.suspended = false) (hready : bus.ready.asserted = false) :
    c.state.Stands (c.edge bus settled).state := by
  cases hr : c.recognisesReset settled with
  | true =>
    rw [edge_of_recognised hr]
    exact ⟨rfl, .inr ⟨rfl, rfl⟩⟩
  | false =>
    rw [edge_of_held (e := (bus, settled)) hs hr hready]
    exact ⟨hs, .inl ⟨rfl, rfl⟩⟩

theorem edge_of_access (hw : c.state.WellFormed) (h : (c.access bus).isSome) (settled : Bus) :
    (∃ hold, (c.edge bus settled).state =
      ((c.state.watch bus).cycle c.config.policy settled).withHold hold) ∨
    (c.edge bus settled).state.sequence = .reset ∧ (c.edge bus settled).state.step = 0 := by
  have hrun : c.runs bus = true := by
    by_contra hn
    rw [access_of_not_runs (Bool.eq_false_iff.2 hn)] at h
    cases h
  cases hr : c.recognisesReset settled with
  | true =>
    rw [edge_of_recognised hr]
    exact .inr ⟨rfl, rfl⟩
  | false =>
    rw [edge_of_runs hw hrun hr]
    exact .inl ⟨_, rfl⟩

theorem currentOp_edge_ne_fetchOpcode (hw : c.state.WellFormed) (h : (c.access bus).isSome)
    (hop : (c.state.watch bus).currentOp = .fetchOpcode) :
    (c.edge bus settled).state.currentOp ≠ .fetchOpcode := by
  rw [ne_eq, State.currentOp_eq_fetchOpcode]
  rintro ⟨hzero, hinstr⟩
  obtain ⟨hold, hcycle⟩ | ⟨hreset, -⟩ := edge_of_access hw h settled
  · have hone : (c.edge bus settled).state.step = 1 := by
      rw [hcycle]
      exact State.step_cycle_of_fetch hop _ _
    rw [hone] at hzero
    cases hzero
  · rw [hreset] at hinstr
    cases hinstr

theorem step_edge_of_closes (hw : c.state.WellFormed) (h : (c.access bus).isSome)
    (hop : (c.state.watch bus).currentOp.Closes) : (c.edge bus settled).state.step = 0 := by
  obtain ⟨hold, hcycle⟩ | ⟨-, hzero⟩ := edge_of_access hw h settled
  · rw [hcycle]
    exact State.step_cycle_of_closes (hw.watch bus) hop _ _
  · exact hzero

end Cpu

namespace Computer

variable {m : Computer} {i : Inputs} {is : List Inputs}

theorem status_respond (ms : List Memory) (bus : Bus) :
    (respond ms bus).bus.status = bus.status := by
  cases h : bus.isWrite with
  | false =>
    rw [respond_of_read h]
    rfl
  | true => rw [respond_of_write h]

theorem status_drive_of_held (hready : i.ready = false)
    (hs : (m.cpu.state.watch (m.bus.withInputs i)).suspended = false) :
    (m.cpu.drive (m.bus.withInputs i)).2.status = m.bus.status := by
  have hline : (m.bus.withInputs i).ready.asserted = false :=
    (Line.asserted_ofAsserted i.ready).trans hready
  have hrun : m.cpu.runs (m.bus.withInputs i) = false := by
    rw [Cpu.runs, hline, Bool.and_false]
  rw [Cpu.drive_of_not_runs hrun, hs]
  rfl

theorem play_held (hs : m.cpu.state.suspended = false) (his : ∀ j ∈ is, j.ready = false) :
    m.cpu.state.Stands (m.play is).cpu.state ∧ (m.play is).bus.status = m.bus.status := by
  induction is generalizing m with
  | nil => exact ⟨⟨hs, .inl ⟨rfl, rfl⟩⟩, rfl⟩
  | cons i is ih =>
    obtain ⟨hi, his'⟩ := List.forall_mem_cons.1 his
    have hstands : m.cpu.state.Stands (m.under i).edge.computer.cpu.state := by
      rw [cpu_edge]
      exact Cpu.stands_of_held hs ((Line.asserted_ofAsserted i.ready).trans hi)
    have hstatus : (m.under i).edge.computer.bus.status = m.bus.status := by
      have hwatch : (m.cpu.state.watch (m.bus.withInputs i)).suspended = false := by
        rw [State.watch_of_running hs]
        exact hs
      rw [bus_edge, settled, status_respond]
      exact status_drive_of_held hi hwatch
    obtain ⟨hrest, hshown⟩ := ih hstands.running his'
    exact ⟨hstands.trans hrest, hshown.trans hstatus⟩

theorem play_held_after (hc : m.cpu.Reachable) (ha : (m.under i).access.isSome)
    (hs : (m.under i).edge.computer.cpu.state.suspended = false)
    (his : ∀ j ∈ is, j.ready = false) :
    let r := m.cpu.state.watch (m.bus.withInputs i)
    let e := (m.under i).edge.computer.play is
    e.cpu.state.suspended = false ∧ e.bus.status = r.status ∧
      (r.currentOp = .fetchOpcode → e.cpu.state.currentOp ≠ .fetchOpcode) ∧
      (r.currentOp.Closes → e.cpu.state.step = 0) := by
  intro r e
  have hw := hc.wellFormed.state
  obtain ⟨hstands, hstatus⟩ := play_held hs his
  have hleft : (m.under i).edge.computer.bus.status = r.status := by
    obtain ⟨a, ha'⟩ : ∃ a, m.cpu.access (m.bus.withInputs i) = some a :=
      Option.isSome_iff_exists.1 ha
    obtain ⟨hop, hshown⟩ := Cpu.drive_of_access hw ha'
    rw [bus_edge, settled, status_respond, cpu_under, bus_under, hshown, hop]
    rfl
  rw [cpu_edge] at hstands
  refine ⟨hstands.running, hstatus.trans hleft, fun hop hfetch => ?_, fun hop => ?_⟩
  · exact Cpu.currentOp_edge_ne_fetchOpcode hw ha hop (hstands.of_fetchOpcode hfetch)
  · exact hstands.step_eq_zero (Cpu.step_edge_of_closes hw ha hop)

theorem describes_while_held (hc : m.cpu.Reachable) (hi : i.ready = false)
    (hs : (m.cpu.state.watch (m.bus.withInputs i)).suspended = false) :
    let s := m.cpu.state.watch (m.bus.withInputs i)
    let shown := (m.cpu.drive (m.bus.withInputs i)).2.status
    shown = m.bus.status ∧ (shown.Describes s ↔ m.bus.status = s.status) := by
  intro s shown
  have hshown : shown = m.bus.status := status_drive_of_held hi hs
  refine ⟨hshown, ?_⟩
  rw [State.describes_iff (hc.wellFormed.state.watch _), hshown]

/-- A processor that is held leaves its status lines as the last cycle has set them. They
describe the cycle that it stands at where that is to show the same, and so never after the
fetch of an opcode or in front of one: the fetch, a write back and the read of a vector go on
being shown when they are over. -/
theorem status_while_held (hc : m.cpu.Reachable) :
    (∀ j, j.ready = false →
      let b := m.bus.withInputs j
      let s := m.cpu.state.watch b
      s.suspended = false →
        let shown := (m.cpu.drive b).2.status
        shown = m.bus.status ∧ (shown.Describes s ↔ m.bus.status = s.status)) ∧
    ∀ i op t, (m.under i).access = some (op, t) →
      let d := (m.under i).edge.computer
      d.cpu.state.suspended = false →
        ∀ is j, (∀ k ∈ is, k.ready = false) → j.ready = false →
          let r := m.cpu.state.watch (m.bus.withInputs i)
          let e := d.play is
          let b := e.bus.withInputs j
          let s := e.cpu.state.watch b
          let shown := (e.cpu.drive b).2.status
          s.suspended = false ∧ shown = r.mode.status op ∧
          (shown.Describes s ↔ op ≠ .fetchOpcode ∧ s.currentOp ≠ .fetchOpcode ∧
            op.pullsVector = s.currentOp.pullsVector ∧ r.locksMemory = s.locksMemory) ∧
          (op = .fetchOpcode → shown.sync = true ∧ s.currentOp ≠ .fetchOpcode) ∧
          (op = .writeLatched → shown.memoryLock = true ∧ s.step = 0) ∧
          ∀ v, op = .vectorHigh v → shown.vectorPull = true ∧ s.step = 0 := by
  refine ⟨fun j hj hs => describes_while_held hc hj hs, ?_⟩
  intro i op t ha d hd is j his hj r e b s shown
  have hw := hc.wellFormed.state
  have hr : r.WellFormed := hw.watch _
  have ha' : m.cpu.access (m.bus.withInputs i) = some (op, t) := ha
  have hop : op = r.currentOp := (Cpu.drive_of_access hw ha').1
  obtain ⟨hrun, hleft, hfetch, hcloses⟩ :=
    play_held_after hc (Option.isSome_of_mem ha) hd his
  have he : e.cpu.Reachable := by
    apply reachable_play
    rw [cpu_edge]
    exact hc.edge _ _
  have hwatch : s = e.cpu.state.sample b := State.watch_of_running hrun b
  have hs : s.suspended = false := by
    rw [hwatch]
    exact hrun
  obtain ⟨hshown, hdescribes⟩ := describes_while_held he hj hs
  have hseen : shown = r.status := hshown.trans hleft
  have hfetch' : op = .fetchOpcode → s.currentOp ≠ .fetchOpcode := by
    rw [hwatch, hop]
    exact hfetch
  have hstep : op.Closes → s.step = 0 := by
    rw [hwatch, hop]
    exact hcloses
  have hapart : (op = .fetchOpcode ↔ s.currentOp = .fetchOpcode) ↔
      op ≠ .fetchOpcode ∧ s.currentOp ≠ .fetchOpcode := by
    constructor
    · intro hsame
      have hne : op ≠ .fetchOpcode := fun h => hfetch' h (hsame.1 h)
      exact ⟨hne, fun h => hne (hsame.2 h)⟩
    · rintro ⟨hne, hne'⟩
      exact iff_of_false hne hne'
  have hstatus : shown = r.mode.status op := by
    rw [hseen, hop]
    rfl
  refine ⟨hs, hstatus, ?_, fun h => ⟨?_, hfetch' h⟩, fun h => ⟨?_, hstep (.inl h)⟩,
    fun v h => ⟨?_, hstep (.inr ⟨v, h⟩)⟩⟩
  · rw [hdescribes, hleft, State.status_eq_iff hr (he.wellFormed.state.watch b), ← hop, hapart,
      and_assoc]
  · rw [hstatus, h]
    rfl
  · rw [hseen]
    exact State.memoryLock_of_writeLatched hr (hop.symm.trans h)
  · rw [hstatus, h]
    rfl

/-- `ASL $10` held in front of its last cycle: the lock that is shown is the one to be shown. -/
theorem status_while_held_locked :
    let rom : Memory := ⟨0, 2, #v[0x06, 0x10], false, by decide, by decide⟩
    let start : Computer := ⟨((Cpu.powerOn .standard).startAt .powerOn, [rom]), .quiet, ⟨0⟩⟩
    let wait := Inputs.quiet.stalled
    let m := start.play (List.replicate 3 .quiet)
    let e := (m.under .quiet).edge.computer.play (List.replicate 2 wait)
    let s := e.cpu.state.watch (e.bus.withInputs wait)
    let shown := (e.cpu.drive (e.bus.withInputs wait)).2.status
    s.currentOp = .writeLatched ∧ shown.memoryLock = true ∧ shown.Describes s := by
  intro rom start wait m e s shown
  have hstart : start.cpu.Reachable := .startAt _ (.powerOn _)
  have hm : m.cpu.Reachable := reachable_play hstart _
  have hstand : s.currentOp = .writeLatched := by decide +kernel
  have hlock : shown.memoryLock = true := by decide +kernel
  have hlocks : (m.cpu.state.watch (m.bus.withInputs .quiet)).locksMemory = s.locksMemory := by
    decide +kernel
  have ha : (m.under .quiet).access = some (.modifyLatched, .read 0x10) := by decide +kernel
  have hd : (m.under .quiet).edge.computer.cpu.state.suspended = false := by decide +kernel
  have hwait : wait.ready = false := rfl
  clear_value m wait
  obtain ⟨-, hafter⟩ := status_while_held hm
  obtain ⟨-, -, hdescribes, -⟩ := hafter .quiet _ _ ha hd (List.replicate 2 wait) wait
    (fun k hk => by rw [List.eq_of_mem_replicate hk, hwait]) hwait
  refine ⟨hstand, hlock, hdescribes.2 ⟨by decide, ?_, ?_, hlocks⟩⟩
  · rw [hstand]
    exact MicroOp.noConfusion
  · rw [hstand]
    rfl

/-- The same instruction held after the fetch of its opcode and after its last cycle: the lines
show the fetch and the lock that are over. -/
theorem status_lingers_while_held :
    let rom : Memory := ⟨0, 2, #v[0x06, 0x10], false, by decide, by decide⟩
    let start : Computer := ⟨((Cpu.powerOn .standard).startAt .powerOn, [rom]), .quiet, ⟨0⟩⟩
    let stands (m : Computer) := m.cpu.state.watch (m.bus.withInputs Inputs.quiet.stalled)
    let shown (m : Computer) := (m.cpu.drive (m.bus.withInputs Inputs.quiet.stalled)).2.status
    let fetched := start.play [.quiet]
    let finished := start.play (List.replicate 5 .quiet)
    (stands fetched).suspended = false ∧ (stands fetched).step = 1 ∧
      (shown fetched).sync = true ∧ ¬ (shown fetched).Describes (stands fetched) ∧
    (stands finished).suspended = false ∧ (stands finished).step = 0 ∧
      (shown finished).memoryLock = true ∧ ¬ (shown finished).Describes (stands finished) := by
  intro rom start stands shown fetched finished
  have hstep : (stands fetched).step = 1 := by decide +kernel
  have hsync : (shown fetched).sync = true := by decide +kernel
  have hstep' : (stands finished).step = 0 := by decide +kernel
  have hlock : (shown finished).memoryLock = true := by decide +kernel
  refine ⟨by decide +kernel, hstep, hsync, fun h => ?_, by decide +kernel, hstep', hlock,
    fun h => ?_⟩
  · have hzero := (h.sync.1 hsync).2
    rw [hstep] at hzero
    cases hzero
  · have hpos := (h.memoryLock.1 hlock).2.1
    rw [hstep'] at hpos
    cases hpos

end Computer

end Cmos6502
