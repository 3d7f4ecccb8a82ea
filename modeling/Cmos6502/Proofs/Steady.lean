import Cmos6502.Proofs.Isolation
import Cmos6502.Proofs.Microcode
import Cmos6502.Proofs.ResetCounter

namespace Cmos6502

namespace MicroOp

def optional : MicroOp → Bool
  | pageFixup | branchFixup | branchTaken => true
  | _ => false

theorem passedOver_of_not_optional {op : MicroOp} (h : op.optional = false) (s : State) :
    op.passedOver s = false := by
  cases op with
  | pageFixup | branchFixup | branchTaken => exact Bool.noConfusion h
  | _ => rfl

theorem mode_actAll (ops : List MicroOp) (p : State × Memory) :
    (actAll ops p).1.sequence = p.1.sequence ∧ (actAll ops p).1.mode = p.1.mode := by
  induction ops generalizing p with
  | nil => exact ⟨rfl, rfl⟩
  | cons op ops ih =>
    rw [actAll_cons]
    split
    · exact ih p
    · obtain ⟨hq, hm⟩ := ih (op.act p)
      exact ⟨hq.trans (sequence_complete op p.1 _), hm.trans (mode_complete op p.1 _)⟩

theorem actAll_take_succ {ops : List MicroOp} {n : Nat} (hn : n < ops.length)
    (ho : ops[n].optional = false) (p : State × Memory) :
    actAll (ops.take (n + 1)) p = ops[n].act (actAll (ops.take n) p) := by
  rw [List.take_succ_eq_append_getElem hn, actAll_append, actAll_cons, actAll_nil,
    passedOver_of_not_optional ho, if_neg Bool.false_ne_true]

theorem actAll_vectored (s : State) (ram : Memory) (vector : Word) :
    actAll (Mode.vectored vector) (s, ram) =
      ({ s with
          regs.pc := .ofBytes (ram.peek vector) (ram.peek (vector + 1))
          regs.p.interruptDisable := true
          regs.p.decimal := false
          latches.data := ram.peek vector }, ram) := rfl

end MicroOp

structure Memory.Serves (ram : Memory) (ops : List MicroOp) : Prop where
  length : ram.length = 0x10000
  writable : ram.writable = true ∨ ∀ op ∈ ops, op.writes = false

namespace Memory

variable {ram : Memory} {ops : List MicroOp}

theorem Full.serves (h : ram.Full) (ops : List MicroOp) : ram.Serves ops :=
  ⟨h.length, .inl h.writable⟩

theorem Serves.exchange (h : ram.Serves ops) (t : Transfer) : (ram.exchange t).2.Serves ops := by
  cases t with
  | read a => exact h
  | write a v =>
    refine ⟨(length_poke ram a v).trans h.length, ?_⟩
    apply h.writable.imp_left
    exact (writable_poke ram a v).trans

theorem Serves.actAll (h : ram.Serves ops) (l : List MicroOp) (s : State) :
    (MicroOp.actAll l (s, ram)).2.Serves ops := by
  induction l generalizing s ram with
  | nil => exact h
  | cons op l ih =>
    rw [MicroOp.actAll_cons]
    split
    · exact ih h s
    · exact ih (h.exchange _) _

end Memory

namespace State

variable {s : State}

theorem transfer_currentOp_of_step_zero (h : s.step = 0) :
    s.currentOp.transfer s = .read s.regs.pc := by
  rw [currentOp_of_step_zero s h]
  split <;> rfl

theorem sample_of_interrupts {i : Inputs} (hi : Inputs.quiet.SameButInterrupts i) (b : Bus) :
    s.sample (b.withInputs i) = s.withRequests (s.requests.after i) := by
  have ho : i.setOverflow = false := by rw [hi]; rfl
  rw [sample_withInputs, ho, Bool.or_false]
  rfl

end State

namespace Computer

theorem follow_add (m : Computer) (w : Nat → Inputs) (a n : Nat) :
    m.follow w (a + n) = (m.follow w a).follow (fun k => w (a + k)) n := by
  induction n with
  | zero => rfl
  | succ n ih => rw [← Nat.add_assoc, follow_succ, follow_succ, ih]

theorem known_of_nmi_released (m : Computer) {w : Nat → Inputs} {n : Nat}
    (hw : ∀ k ≤ n, (w k).nmi = false) :
    m.known w (n + 1) = ⟨(w n).irq, m.cpu.state.requests.nmi, false⟩ := by
  induction n with
  | zero => simp [known, Requests.after, hw 0 (Nat.le_refl 0)]
  | succ n ih =>
    rw [known, ih fun k hk => hw k (Nat.le_succ_of_le hk)]
    simp [Requests.after, hw (n + 1) (Nat.le_refl _)]

variable {m : Computer} {ram : Memory}

theorem edge_of_interrupts (hw : m.cpu.state.WellFormed) (hs : m.cpu.state.suspended = false)
    (hm : m.memories = [ram]) (hl : ram.length = 0x10000)
    (hon : ram.writable = true ∨ m.cpu.state.currentOp.writes = false) {i : Inputs}
    (hi : Inputs.quiet.SameButInterrupts i) :
    let s := m.cpu.state
    let x := ram.exchange (s.currentOp.transfer s)
    let t := s.executed m.cpu.config.policy s.currentOp x.1
    let e := (m.under i).edge.computer
    e.cpu.state = (t.reframe t.sequence t.step (s.requests.after i) 0).advance ∧
      e.memories = [x.2] ∧ e.bus.isWrite = s.currentOp.writes := by
  intro s x t e
  have hinputs : (m.under i).bus.inputs = i := by rw [bus_under, Bus.inputs_withInputs]
  obtain ⟨hcpu, hmem, hbus⟩ := edge_of_whole (m := m.under i) hw hs hm hl hon
    (by rw [hinputs, hi]; rfl) (by rw [hinputs, hi]; rfl) (by rw [hinputs, hi]; rfl)
  have hsample : (m.under i).cpu.state.sample (m.under i).bus =
      s.withRequests (s.requests.after i) := State.sample_of_interrupts hi m.bus
  rw [hsample, State.transfer_withRequests] at hcpu hmem
  refine ⟨?_, hmem, hbus⟩
  have hstate := congrArg Cpu.state hcpu
  apply hstate.trans
  change ((s.withRequests (s.requests.after i)).executed _ s.currentOp x.1).advance.withHold 0 = _
  rw [State.executed_withRequests, ← State.advance_withHold]
  rfl

/-- The edge of the micro-op that comes `n`-th in a sequence none of whose cycles
is passed over; `q` is what the ones before it have made of the state. -/
theorem edge_of_advance (hw : m.cpu.state.WellFormed) {q : State} {seq : Sequence} {n : Nat}
    {r : Requests} (hstate : m.cpu.state = (q.reframe seq n r 0).advance)
    {ops : List MicroOp} (hmode : (q.reframe seq n r 0).mode.microOps = ops) (hn : n < ops.length)
    (hops : ∀ op ∈ ops, op.optional = false) (hmem : m.memories = [ram]) (hram : ram.Serves ops)
    {i : Inputs} (hi : Inputs.quiet.SameButInterrupts i) :
    let p := ops[n].act (q, ram)
    let e := (m.under i).edge.computer
    e.cpu.state = (p.1.reframe seq (n + 1) (r.after i) 0).advance ∧
      e.memories = [p.2] ∧ e.bus.isWrite = ops[n].writes := by
  subst hmode
  intro p e
  let s := q.reframe seq n r 0
  let op := s.mode.microOps[n]
  have hmem' : op ∈ s.mode.microOps := List.getElem_mem hn
  have hmoved : m.cpu.state = q.reframe seq (n + 1) r 0 := by
    apply hstate.trans
    apply State.advance_of_not_passedOver hn
    exact MicroOp.passedOver_of_not_optional (hops op hmem') s
  have hop : m.cpu.state.currentOp = op := by
    rw [hmoved]
    exact State.currentOp_atStep_succ (s := s) hn
  have hstep : m.cpu.state.step = n + 1 := by
    rw [hmoved]
    rfl
  have hrun : m.cpu.state.suspended = false := by
    apply hw.running
    rw [hstep]
    exact Nat.succ_ne_zero n
  have hon : ram.writable = true ∨ m.cpu.state.currentOp.writes = false := by
    rw [hop]
    exact hram.writable.imp_right fun h => h op hmem'
  obtain ⟨hnext, hmems, hbus⟩ := edge_of_interrupts hw hrun hmem hram.length hon hi
  rw [State.executed_eq_complete hstep, hop, hmoved, MicroOp.transfer_reframe,
    MicroOp.complete_reframe] at hnext
  rw [hop, hmoved, MicroOp.transfer_reframe] at hmems
  rw [hop] at hbus
  exact ⟨hnext, hmems, hbus⟩

section Steady

def begun (m : Computer) (ram : Memory) : State :=
  m.cpu.state.executed m.cpu.config.policy m.cpu.state.currentOp (ram.peek m.cpu.state.regs.pc)

theorem begun_of_entry (h0 : m.cpu.state.step = 0) (hq : m.cpu.state.sequence ≠ .instruction) :
    m.begun ram = m.cpu.state := by
  rw [begun, State.currentOp_of_step_zero _ h0, if_neg hq]
  rfl

theorem begun_of_instruction (h0 : m.cpu.state.step = 0)
    (hq : m.cpu.state.sequence = .instruction) :
    let opcode := ram.peek m.cpu.state.regs.pc
    m.begun ram = (m.cpu.state.bumpPc.withData opcode).latchOpcode m.cpu.config.policy opcode := by
  rw [begun, State.currentOp_of_step_zero _ h0, if_pos hq]
  rfl

variable {w : Nat → Inputs} (hm : m.cpu.Reachable) (hs : m.cpu.state.suspended = false)
  (h0 : m.cpu.state.step = 0) (hmem : m.memories = [ram])
  (hram : ram.Serves (m.begun ram).mode.microOps)
  (hops : ∀ op ∈ (m.begun ram).mode.microOps, op.optional = false)
include hm hs h0 hmem hram hops

/-- A sequence none of whose cycles is ever passed over takes an edge for each of
its micro-ops, one after the other. -/
theorem follow_steady {n : Nat} (hn : n ≤ (m.begun ram).mode.microOps.length)
    (hw : ∀ k ≤ n, Inputs.quiet.SameButInterrupts (w k)) :
    let p := MicroOp.actAll ((m.begun ram).mode.microOps.take n) (m.begun ram, ram)
    (m.follow w (n + 1)).cpu.state =
        (p.1.reframe m.cpu.state.sequence n (m.known w (n + 1)) 0).advance ∧
      (m.follow w (n + 1)).memories = [p.2] ∧
      ((∀ op ∈ (m.begun ram).mode.microOps, op.writes = false) →
        (m.follow w (n + 1)).bus.isWrite = false) := by
  -- the first edge begins the sequence, and each later one takes one micro-op
  induction n with
  | zero =>
    have hfirst := State.transfer_currentOp_of_step_zero h0
    have hreads : m.cpu.state.currentOp.writes = false := by
      rw [← MicroOp.writes_transfer _ m.cpu.state, hfirst]
      rfl
    obtain ⟨hstate, hmems, hbus⟩ := edge_of_interrupts hm.wellFormed.state hs hmem hram.length
      (.inr hreads) (hw 0 (Nat.le_refl 0))
    rw [hfirst] at hstate hmems
    refine ⟨hstate.trans ?_, hmems, fun _ => hbus.trans hreads⟩
    rw [State.sequence_executed, State.step_executed, h0]
    rfl
  | succ n ih =>
    obtain ⟨hstate, hmems, -⟩ :=
      ih (Nat.le_of_succ_le hn) fun k hk => hw k (Nat.le_succ_of_le hk)
    let ops := (m.begun ram).mode.microOps
    let q := MicroOp.actAll (ops.take n) (m.begun ram, ram)
    have hlt : n < ops.length := hn
    have hseq : q.1.sequence = m.cpu.state.sequence :=
      (MicroOp.mode_actAll _ _).1.trans (State.sequence_executed _ _ _ _)
    have hmode :
        (q.1.reframe m.cpu.state.sequence n (m.known w (n + 1)) 0).mode.microOps = ops := by
      rw [← hseq]
      exact congrArg Mode.microOps (MicroOp.mode_actAll _ _).2
    obtain ⟨hstate', hmems', hbus⟩ :=
      edge_of_advance (reachable_follow hm w (n + 1)).wellFormed.state hstate hmode hlt hops hmems
        (hram.actAll (ops.take n) (m.begun ram)) (hw (n + 1) (Nat.le_refl _))
    rw [MicroOp.actAll_take_succ hlt (hops _ (List.getElem_mem hlt))]
    exact ⟨hstate', hmems', fun hnone => hbus.trans (hnone _ (List.getElem_mem hlt))⟩

theorem follow_steady_end
    (hw : ∀ k < (m.begun ram).mode.cycles, Inputs.quiet.SameButInterrupts (w k)) :
    let ops := (m.begun ram).mode.microOps
    let p := MicroOp.actAll ops (m.begun ram, ram)
    let e := m.follow w (m.begun ram).mode.cycles
    e.cpu.state =
        (p.1.reframe m.cpu.state.sequence ops.length
          (m.known w (m.begun ram).mode.cycles) 0).boundary ∧
      e.memories = [p.2] := by
  intro ops p e
  obtain ⟨hstate, hmems, -⟩ := follow_steady hm hs h0 hmem hram hops (Nat.le_refl ops.length)
    fun k hk => hw k (Nat.lt_succ_of_le hk)
  rw [List.take_length] at hstate hmems
  refine ⟨hstate.trans ?_, hmems⟩
  have hseq : p.1.sequence = m.cpu.state.sequence :=
    (MicroOp.mode_actAll _ _).1.trans (State.sequence_executed _ _ _ _)
  apply State.advance_of_le
  rw [← hseq]
  exact (congrArg (fun mode => mode.microOps.length) (MicroOp.mode_actAll ops _).2).le

end Steady

theorem follow_quiet (hm : m.cpu.Reachable) (hs : m.cpu.state.suspended = false)
    (h0 : m.cpu.state.step = 0) (hmem : m.memories = [ram]) (hf : ram.Full) {ops : List MicroOp}
    (hmode : (m.begun ram).mode.microOps = ops) (hops : ∀ op ∈ ops, op.optional = false) :
    let p := MicroOp.actAll ops (m.begun ram, ram)
    let e := m.follow (fun _ => .quiet) (ops.length + 1)
    e.cpu.state = p.1.concluded m.cpu.state.requests.nmi ∧ e.memories = [p.2] := by
  subst hmode
  intro p e
  obtain ⟨hend, hmems⟩ :=
    follow_steady_end (w := fun _ => .quiet) hm hs h0 hmem (hf.serves _) hops fun _ _ => rfl
  refine ⟨hend.trans ?_, hmems⟩
  rw [Mode.cycles, known_of_nmi_released m fun _ _ => rfl]
  let r : Requests := ⟨false, m.cpu.state.requests.nmi, false⟩
  let t := p.1.reframe m.cpu.state.sequence (m.begun ram).mode.microOps.length r 0
  exact (t.boundary_withHold 0).trans (t.boundary_of_quiet rfl)

end Computer

end Cmos6502
