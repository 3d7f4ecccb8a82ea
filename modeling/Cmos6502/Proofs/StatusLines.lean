import Cmos6502.Proofs.CycleCount

namespace Cmos6502

structure Status where
  sync : Bool
  vectorPull : Bool
  memoryLock : Bool
deriving DecidableEq

def Status.released : Status := ⟨false, false, false⟩

def Bus.status (bus : Bus) : Status :=
  ⟨bus.sync.asserted, bus.vectorPull.asserted, bus.memoryLock.asserted⟩

theorem Bus.status_driveTransfer (bus : Bus) (t : Transfer) :
    (bus.driveTransfer t).status = bus.status := by
  simp only [driveTransfer]
  split
  · cases t <;> rfl
  · rfl

namespace Mode

def endsInVector : Mode → Bool
  | brk | irq | nmi | reset => true
  | _ => false

def status (m : Mode) (op : MicroOp) : Status where
  sync := op = .fetchOpcode
  vectorPull := op.pullsVector
  memoryLock := m.readsThenWrites && Use.modify.transfer.contains op

/-- The status on cycle `k` of the `n` of a sequence, an instruction or not. -/
def schedule (m : Mode) (fetches : Bool) (n k : Nat) : Status where
  sync := fetches && k == 0
  vectorPull := m.endsInVector && n ≤ k + 2
  memoryLock := m.readsThenWrites && n ≤ k + 3

theorem schedule_succ (m : Mode) (fetches : Bool) (n k : Nat) :
    m.schedule fetches (n + 1) (k + 1) = m.schedule false n k := by
  have h (j : Nat) : n + 1 ≤ k + 1 + j ↔ n ≤ k + j := by omega
  simp [schedule, h]

theorem not_pullsVector {m : Mode} (hv : m.endsInVector = false) {op : MicroOp}
    (h : op ∈ m.microOps) : op.pullsVector = false := by
  have table : ∀ o ∈ m.microOps, o.pullsVector = false := by
    cases m with
    | memory form use =>
      cases form <;> cases use <;>
        simp [microOps, Form.addressing, Use.transfer, MicroOp.pullsVector]
    | brk | irq | nmi | reset => cases hv
    | _ => simp [microOps, branching, MicroOp.pullsVector]
  exact table op h

theorem schedule_of_vector {m : Mode} (hv : m.endsInVector = true)
    (hm : m.readsThenWrites = false) (n k : Nat) :
    m.schedule false n k = if n ≤ k + 2 then ⟨false, true, false⟩ else .released := by
  by_cases h : n ≤ k + 2 <;> simp [schedule, Status.released, hv, hm, h]

theorem schedule_of_modify (form : Form) (n k : Nat) :
    (memory form .modify).schedule false n k =
      if n ≤ k + 3 then ⟨false, false, true⟩ else .released := by
  by_cases h : n ≤ k + 3 <;> simp [schedule, Status.released, endsInVector, readsThenWrites, h]

theorem not_locks_of_mem {form : Form} {op : MicroOp} (h : op ∈ form.addressing) :
    Use.modify.transfer.contains op = false := by
  have table : ∀ o ∈ form.addressing, Use.modify.transfer.contains o = false := by
    cases form <;> simp [Form.addressing, Use.transfer]
  exact table op h

theorem status_of_mem_addressing {form : Form} {op : MicroOp} (h : op ∈ form.addressing) :
    (memory form .modify).status op = .released := by
  have hop : op ∈ (memory form .modify).microOps := List.mem_append_left _ h
  have hf : op ≠ .fetchOpcode := fun he => fetchOpcode_notMem_microOps _ (he ▸ hop)
  rw [status, not_locks_of_mem h, not_pullsVector rfl hop, decide_eq_false hf]
  rfl

theorem status_first (m : Mode) (q : Sequence) :
    m.status (if q = .instruction then .fetchOpcode else .dummyProgram) =
      ⟨q = .instruction, false, false⟩ := by
  by_cases hq : q = .instruction <;> simp [status, MicroOp.pullsVector, Use.transfer, hq]

end Mode

namespace State

variable {s : State}

theorem locksMemory_eq (h : s.WellFormed) :
    s.locksMemory = (s.mode.readsThenWrites && Use.modify.transfer.contains s.currentOp) := by
  cases hk : s.step with
  | zero =>
    rw [currentOp_of_step_zero s hk, locksMemory, hk]
    split <;> simp [Use.transfer]
  | succ k =>
    have hm := currentOp_mem_microOps s hk h.step_lt
    cases hmode : s.mode with
    | memory form use =>
      cases use with
      | read | write => simp [locksMemory, hmode, Mode.readsThenWrites]
      | modify =>
        rw [hmode, Mode.microOps] at hm
        -- the processor counts the steps, and the transfer starts where the addressing ends
        have hlock : s.locksMemory = decide (form.addressing.length ≤ k) := by
          simp [locksMemory, hmode, hk, Mode.readsThenWrites, Mode.cycles, Mode.microOps,
            Use.transfer]
        rw [hlock, Mode.readsThenWrites, Bool.true_and]
        by_cases hl : k < form.addressing.length
        · rw [List.getElem?_append_left hl] at hm
          rw [Mode.not_locks_of_mem (List.mem_of_getElem? hm)]
          exact decide_eq_false (Nat.not_le_of_lt hl)
        · rw [List.getElem?_append_right (Nat.le_of_not_lt hl)] at hm
          rw [List.contains_iff_mem.2 (List.mem_of_getElem? hm)]
          exact decide_eq_true (Nat.le_of_not_lt hl)
    | _ => simp [locksMemory, hmode, Mode.readsThenWrites]

theorem status_drives (h : s.WellFormed) (bus : Bus) :
    (s.drives bus).status = s.mode.status s.currentOp := by
  rw [drives, Bus.status_driveTransfer, locksMemory_eq h]
  simp [Bus.status, Bus.signal, Mode.status]

theorem mode_begun (h0 : s.step = 0) (policy : Policy) (b : Beat) :
    (s.begun policy b).mode =
      if s.sequence = .instruction then (Instruction.decode policy b.data).mode else s.mode := by
  have hseq : (s.begun policy b).sequence = s.sequence := sequence_executed _ _ _ _
  by_cases hq : s.sequence = .instruction
  · rw [if_pos hq, mode, hseq, hq]
    change (s.begun policy b).instruction.mode = _
    rw [begun, currentOp_of_step_zero s h0, if_pos hq]
    rfl
  · rw [if_neg hq, begun, currentOp_of_step_zero s h0, if_neg hq]
    rfl

end State

theorem map_append_eq_range {α β : Type} {f : α → β} {x y : β} {l₁ l₂ : List α}
    (h₁ : ∀ a ∈ l₁, f a = x) (h₂ : ∀ a ∈ l₂, f a = y) :
    (l₁ ++ l₂).map f = (List.range (l₁ ++ l₂).length).map fun i =>
      if (l₁ ++ l₂).length ≤ i + l₂.length then y else x := by
  have hlen : (l₁ ++ l₂).length = l₁.length + l₂.length := List.length_append
  apply List.ext_getElem
  · simp
  · intro i hi hi'
    rw [List.getElem_map, List.getElem_map, List.getElem_range]
    by_cases hl : i < l₁.length
    · rw [List.getElem_append_left hl, h₁ _ (List.getElem_mem hl), if_neg (by omega)]
    · have hr : l₁.length ≤ i := Nat.le_of_not_lt hl
      rw [List.getElem_append_right hr, h₂ _ (List.getElem_mem _), if_pos (by omega)]

namespace MicroOp

theorem pullsVector_iff (op : MicroOp) :
    op.pullsVector = true ↔ ∃ v, op = .vectorLow v ∨ op = .vectorHigh v := by
  cases op <;> simp [pullsVector]

variable {s t : State} {l : List Beat} {as : List (MicroOp × Transfer)}

theorem Performs.status_of_tail {m : Mode} {front tail : List MicroOp} {y : Status}
    (h : Performs m.microOps s l as t) (hops : m.microOps = front ++ tail)
    (hfront : ∀ op ∈ front, m.status op = .released)
    (htail : ∀ op ∈ tail, m.status op = y ∧ op.optional = false)
    (hplan : ∀ n i, m.schedule false n i = if n ≤ i + tail.length then y else .released) :
    as.map (fun a => m.status a.1) = (List.range as.length).map (m.schedule false as.length) := by
  rw [hops] at h
  obtain ⟨l₁, l₂, as₁, as₂, u, rfl, rfl, h₁, h₂⟩ := h.of_append
  have hrest : as₂.map Prod.fst = tail := h₂.map_fst fun op ho => (htail op ho).2
  have hlen : tail.length = as₂.length := by rw [← hrest, List.length_map]
  have hseen : (as₁ ++ as₂).map (fun a => m.status a.1) =
      (List.range (as₁ ++ as₂).length).map fun i =>
        if (as₁ ++ as₂).length ≤ i + as₂.length then y else .released := by
    apply map_append_eq_range
    · intro a ha
      exact hfront a.1 (h₁.sublist.subset (List.mem_map_of_mem ha))
    · intro a ha
      apply (htail a.1 _).1
      rw [← hrest]
      exact List.mem_map_of_mem ha
  rw [hseen]
  apply List.map_congr_left
  intro i _
  rw [hplan, hlen]

theorem Performs.status_eq {m : Mode} (h : Performs m.microOps s l as t) :
    as.map (fun a => m.status a.1) =
      (List.range as.length).map (m.schedule false as.length) := by
  have plain (hv : m.endsInVector = false) (hm : m.readsThenWrites = false) :
      as.map (fun a => m.status a.1) =
        (List.range as.length).map (m.schedule false as.length) := by
    apply h.status_of_tail (y := .released) (List.append_nil _).symm
    · intro op ho
      have hf : op ≠ .fetchOpcode := fun he => m.fetchOpcode_notMem_microOps (he ▸ ho)
      simp [Mode.status, Status.released, hf, hm, Mode.not_pullsVector hv ho]
    · intro op ho
      cases ho
    · intro n i
      rw [ite_self, Mode.schedule, hv, hm]
      rfl
  cases m with
  | memory form use =>
    cases use with
    | read | write => exact plain rfl rfl
    | modify =>
      apply h.status_of_tail (y := ⟨false, false, true⟩) rfl
      · exact fun op ho => Mode.status_of_mem_addressing ho
      · intro op ho
        simp only [Use.transfer, List.mem_cons, List.not_mem_nil, or_false] at ho
        rcases ho with rfl | rfl | rfl <;> exact ⟨rfl, rfl⟩
      · exact fun n i => Mode.schedule_of_modify form n i
  | brk | irq | nmi | reset =>
    apply h.status_of_tail (y := ⟨false, true, false⟩) rfl (by decide) (by decide)
    exact fun n i => Mode.schedule_of_vector rfl rfl n i
  | _ => exact plain rfl rfl

theorem Performs.schedule_zero {m : Mode} (h : Performs m.microOps s l as t) (fetches : Bool) :
    m.schedule fetches (as.length + 1) 0 = ⟨fetches, false, false⟩ := by
  have hvector (hv : m.endsInVector = true) : 2 < as.length + 1 := by
    have hlen := h.length_eq
    cases m with
    | brk | irq | nmi | reset =>
      rw [hlen, h.length_of_constant rfl]
      decide
    | _ => cases hv
  have hmodify (hm : m.readsThenWrites = true) : 3 < as.length + 1 := by
    cases m with
    | memory form use =>
      cases use with
      | read | write => cases hm
      | modify =>
        obtain ⟨l₁, l₂, as₁, as₂, u, -, rfl, h₁, h₂⟩ := h.of_append
        have hrest := congrArg List.length h₂.of_use
        rw [List.length_map] at hrest
        change as₂.length = 3 at hrest
        have hpos : 0 < as₁.length := by
          obtain ⟨rest, hops⟩ : ∃ rest, form.addressing = .operandLow :: rest := by
            cases form <;> exact ⟨_, rfl⟩
          rw [hops] at h₁
          obtain ⟨_, _, _, -, rfl, -⟩ := h₁.of_cons rfl
          exact Nat.succ_pos _
        rw [List.length_append]
        omega
    | _ => cases hm
  have hv : (m.endsInVector && decide (as.length + 1 ≤ 0 + 2)) = false := by
    by_contra hn
    simp only [Bool.not_eq_false, Bool.and_eq_true, decide_eq_true_eq] at hn
    have := hvector hn.1
    omega
  have hm : (m.readsThenWrites && decide (as.length + 1 ≤ 0 + 3)) = false := by
    by_contra hn
    simp only [Bool.not_eq_false, Bool.and_eq_true, decide_eq_true_eq] at hn
    have := hmodify hn.1
    omega
  rw [Mode.schedule, hv, hm]
  simp

end MicroOp

namespace Cpu

def shown (c : Cpu) (bus : Bus) : Option Status :=
  (c.access bus).map fun _ => (c.drive bus).2.status

def shows (c : Cpu) (es : List (Bus × Bus)) : List Status := c.collect shown es

def planned (c : Cpu) (l : List Beat) : Mode :=
  if c.state.sequence = .instruction then
    (Instruction.decode c.config.policy (heard l 0)).mode
  else c.state.mode

variable {c : Cpu} {bus : Bus} {es : List (Bus × Bus)}

theorem drive_of_access (hw : c.state.WellFormed) {a : MicroOp × Transfer}
    (h : c.access bus = some a) :
    a.1 = (c.state.watch bus).currentOp ∧
      (c.drive bus).2.status = (c.state.watch bus).mode.status a.1 := by
  cases hrun : c.runs bus with
  | false =>
    rw [access_of_not_runs hrun] at h
    cases h
  | true =>
    rw [access_of_runs hw hrun] at h
    cases h
    rw [drive_of_runs hw hrun]
    exact ⟨rfl, State.status_drives (hw.watch bus) bus⟩

theorem status_drive_of_suspended (h : (c.state.watch bus).suspended = true) :
    (c.drive bus).2.status = .released := by
  simp only [drive, h, if_true]
  simp [Bus.releaseStatus, Bus.status, Status.released]

theorem drive_busEnable (l : Line (Pin.polarity .busEnable)) :
    (c.drive { bus with busEnable := l }).1 = (c.drive bus).1 ∧
      (c.drive { bus with busEnable := l }).2.status = (c.drive bus).2.status := by
  have hwatch : c.state.watch { bus with busEnable := l } = c.state.watch bus := rfl
  simp only [drive, hwatch]
  split
  · exact ⟨rfl, rfl⟩
  · split
    · refine ⟨rfl, ?_⟩
      simp only [begin, Bus.status_driveTransfer]
      rfl
    · exact ⟨rfl, rfl⟩

theorem Spans.shows_rest (h : c.Spans es) (hc : c.Reachable) {k : Nat}
    (hk : c.state.step = k + 1) :
    c.shows es = (c.accesses es).map fun a => c.state.mode.status a.1 := by
  induction es generalizing c k with
  | nil => rfl
  | cons e es ih =>
    have hw := hc.wellFormed.state
    have hs : c.state.suspended = false := hw.running (by rw [hk]; exact Nat.succ_ne_zero k)
    have hshown : c.shown e.1 = (c.access e.1).map fun a => c.state.mode.status a.1 := by
      rw [shown]
      cases ha : c.access e.1 with
      | none => rfl
      | some a =>
        have hstatus := (drive_of_access hw ha).2
        rw [State.watch_of_running hs] at hstatus
        exact congrArg some hstatus
    have hrest : (c.edge e.1 e.2).shows es =
        ((c.edge e.1 e.2).accesses es).map fun a => c.state.mode.status a.1 := by
      cases hret : c.returns e with
      | true =>
        obtain ⟨-, rfl⟩ := (spans_cons_of_returns hret).1 h
        rfl
      | false =>
        obtain ⟨hr, hspans⟩ := (spans_cons hret).1 h
        obtain ⟨-, hstep, hmode, -⟩ | ⟨-, -, hstep⟩ | ⟨j, -, -, -, -, -, hstep, hmode, -⟩ :=
          moves hw hk hr
        · rw [← hmode]
          exact ih hspans (hc.edge e.1 e.2) hstep
        · simp [returns, hk, hstep] at hret
        · rw [← hmode]
          exact ih hspans (hc.edge e.1 e.2) hstep
    rw [accesses_cons, List.map_append, ← hrest, ← Option.toList_map, ← hshown]
    rfl

theorem Spans.shows_eq (h : c.Spans es) (hc : c.Reachable) (hs : c.state.suspended = false)
    (h0 : c.state.step = 0) :
    let n := (c.accesses es).length
    c.shows es = (List.range n).map
      ((c.planned (beats false es)).schedule (c.state.sequence = .instruction) n) := by
  intro n
  obtain ⟨b, d, e, rest, hd⟩ := h.begins hc hs h0
  let f := d.edge e.1 e.2
  let as := f.accesses rest
  have hplanned : c.planned (beats false es) = f.state.mode := by
    rw [hd.mode_edge, State.mode_begun h0, hd.beats_eq]
    rfl
  obtain ⟨t, ht⟩ := hd.performs
  rw [← hd.mode_edge] at ht
  have hn : n = as.length + 1 := congrArg List.length (hd.accesses_eq h0)
  have hfirst : d.shown e.1 = some ⟨c.state.sequence = .instruction, false, false⟩ := by
    have ha := hd.access_eq h0
    have hstatus := (drive_of_access hd.reachable.wellFormed.state ha).2
    rw [State.watch_of_running hd.running, State.currentOp_of_step_zero _ h0,
      Mode.status_first] at hstatus
    rw [shown, ha, Option.map_some, hstatus]
  have hrest : f.shows rest =
      (List.range as.length).map (f.state.mode.schedule false as.length) := by
    rw [hd.spans.shows_rest (hd.reachable.edge e.1 e.2) hd.step_edge]
    exact ht.status_eq
  rw [shows, hd.collect_eq shown fun _ _ ha => by rw [shown, ha]; rfl, hfirst, hplanned, hn,
    List.range_succ_eq_map, List.map_cons, ht.schedule_zero, List.map_map]
  change _ :: f.shows rest = _
  rw [hrest]
  exact congrArg _ (List.map_congr_left fun i _ => (Mode.schedule_succ _ _ _ _).symm)

/-- On every access the status lines show what it is: an opcode fetch, the read of a
vector, or a transfer of the operand of a mode that writes back. So a whole sequence
shows what its mode has planned for each of its cycles, whichever of them are paid.
Nothing is shown while the processor is suspended, and the enabling of the bus does
not matter. -/
theorem status_lines (hc : c.Reachable) :
    (∀ bus op t, c.access bus = some (op, t) →
      let s := c.state.watch bus
      let shown := (c.drive bus).2
      op = s.currentOp ∧
      (shown.sync.asserted = true ↔ s.sequence = .instruction ∧ s.step = 0) ∧
      (shown.vectorPull.asserted = true ↔ ∃ v, op = .vectorLow v ∨ op = .vectorHigh v) ∧
      (shown.memoryLock.asserted = true ↔
        s.mode.readsThenWrites = true ∧ op ∈ Use.modify.transfer) ∧
      (s.step = 0 → shown.memoryLock.asserted = false)) ∧
    (c.state.suspended = false → c.state.step = 0 → ∀ es, c.Spans es →
      let n := (c.accesses es).length
      c.shows es = (List.range n).map
        ((c.planned (beats false es)).schedule (c.state.sequence = .instruction) n)) ∧
    (∀ bus, (c.state.watch bus).suspended = true → (c.drive bus).2.status = .released) ∧
    ∀ bus l,
      (c.drive { bus with busEnable := l }).1 = (c.drive bus).1 ∧
        (c.drive { bus with busEnable := l }).2.status = (c.drive bus).2.status := by
  refine ⟨?_, fun hs h0 es h => h.shows_eq hc hs h0, fun _ => status_drive_of_suspended,
    fun _ => drive_busEnable⟩
  intro bus op t ha s shown
  obtain ⟨hop, hstatus⟩ := drive_of_access hc.wellFormed.state ha
  change op = s.currentOp at hop
  have hsync : shown.sync.asserted = decide (op = .fetchOpcode) := congrArg Status.sync hstatus
  have hvector : shown.vectorPull.asserted = op.pullsVector := congrArg Status.vectorPull hstatus
  have hlock : shown.memoryLock.asserted =
      (s.mode.readsThenWrites && Use.modify.transfer.contains op) :=
    congrArg Status.memoryLock hstatus
  refine ⟨hop, ?_, ?_, ?_, ?_⟩
  · rw [hsync, decide_eq_true_eq, hop, State.currentOp_eq_fetchOpcode]
    exact And.comm
  · rw [hvector]
    exact op.pullsVector_iff
  · rw [hlock, Bool.and_eq_true, List.contains_iff_mem]
  · intro h0
    rw [hlock, hop, State.currentOp_of_step_zero s h0]
    split <;> simp [Use.transfer]

/-- `ASL $1000,X` without a carry, so without the cycle of the fixup. -/
theorem status_lines_unfixed_shift :
    let c := (powerOn .standard).startAt .powerOn
    let brings (v : Byte) : Bus × Bus := (.quiet, { Bus.quiet with data := v })
    let es := [0x1E, 0x00, 0x10, 0x01, 0x01, 0x01].map brings
    c.Spans es ∧
    c.shows es = [⟨true, false, false⟩, .released, .released, ⟨false, false, true⟩,
      ⟨false, false, true⟩, ⟨false, false, true⟩] := by
  intro c brings es
  have hspans : c.Spans es := by decide +kernel
  have hshows := (status_lines (.startAt _ (.powerOn _))).2.1 rfl rfl es hspans
  refine ⟨hspans, hshows.trans ?_⟩
  decide +kernel

end Cpu

end Cmos6502
