import Cmos6502.Proofs.Ram

namespace Cmos6502

namespace MicroOp

def act (op : MicroOp) (p : State × Memory) : State × Memory :=
  let x := p.2.exchange (op.transfer p.1)
  (op.complete p.1 x.1, x.2)

/-- Micro-ops one after the other, less those that cost no cycle when their turn
comes. -/
def actAll (ops : List MicroOp) (p : State × Memory) : State × Memory :=
  ops.foldl (fun p op => if op.passedOver p.1 then p else op.act p) p

theorem actAll_nil (p : State × Memory) : actAll [] p = p := rfl

theorem actAll_cons (op : MicroOp) (ops : List MicroOp) (p : State × Memory) :
    actAll (op :: ops) p = actAll ops (if op.passedOver p.1 then p else op.act p) := rfl

theorem actAll_append (ops rest : List MicroOp) (p : State × Memory) :
    actAll (ops ++ rest) p = actAll rest (actAll ops p) :=
  List.foldl_append

theorem actAll_of_passedOver {ops : List MicroOp} {p : State × Memory}
    (h : ∀ op ∈ ops, op.passedOver p.1 = true) : actAll ops p = p := by
  induction ops with
  | nil => rfl
  | cons op ops ih =>
    rw [actAll_cons, if_pos (h op List.mem_cons_self)]
    exact ih fun o ho => h o (List.mem_cons_of_mem op ho)

theorem actAll_reframe (ops : List MicroOp) (s : State) (ram : Memory) (q : Sequence) (k : Nat)
    (r : Requests) (hold : Byte) :
    actAll ops (s.reframe q k r hold, ram) =
      ((actAll ops (s, ram)).1.reframe q k r hold, (actAll ops (s, ram)).2) := by
  induction ops generalizing s ram with
  | nil => rfl
  | cons op ops ih =>
    rw [actAll_cons, actAll_cons, passedOver_reframe]
    split
    · exact ih s ram
    · rw [act, transfer_reframe, complete_reframe]
      exact ih _ _

end MicroOp

namespace State

variable (s : State)

/-- Where a sequence ends when nothing is asked for but, maybe, a non-maskable
interrupt that was noticed before. -/
def concluded (nmi : Bool) : State :=
  { s with
    sequence := if nmi then .nmi else .instruction
    step := 0
    latches := .clear
    requests := .none
    resetHold := 0
    paused := s.paused && !nmi }

theorem boundary_of_quiet {nmi : Bool} (h : s.requests = ⟨false, nmi, false⟩) :
    s.boundary.withHold 0 = s.concluded nmi := by
  have hn : s.next = if nmi then .nmi else .instruction := by
    rw [next, h]
    rfl
  rw [boundary_eq, hn, h]
  cases nmi <;> rfl

theorem advance_of_step_zero (h : s.step = 0) : s.advance = s.atStep 1 := by
  obtain ⟨op, rest, hm, -⟩ := s.mode.microOps_eq_cons
  rw [advance_of_remaining_cons s ((remaining_of_step_zero s h).trans hm), Mode.cycles, hm]
  congr 1
  exact Nat.add_sub_cancel_left _ _

variable {s}

theorem executed_eq_complete {k : Nat} (hk : s.step = k + 1) (policy : Policy) (v : Byte) :
    s.executed policy s.currentOp v = s.currentOp.complete s v := by
  have hf : s.currentOp ≠ .fetchOpcode := fun h => by
    have h0 := ((currentOp_eq_fetchOpcode s).1 h).1
    omega
  exact if_neg hf

theorem WellFormed.cycleOn (hw : s.WellFormed) (hs : s.suspended = false) (policy : Policy)
    (ram : Memory) :
    (s.cycleOn policy ram).WellFormed := by
  let r : Requests := ⟨false, s.requests.nmi, false⟩
  have hr : (s.withRequests r).WellFormed :=
    hw.update s.regs r s.resetHold fun hp => (hw.waiting hp).2.2.1
  have hc := hr.finish hs policy (ram.exchange (s.currentOp.transfer s)).1
  exact hc.update _ _ 0 fun hp => (hc.waiting hp).2.2.1

theorem cycleOn_cases {k : Nat} (hw : s.WellFormed) (hk : s.step = k + 1) (policy : Policy)
    (ram : Memory) :
    let nmi := s.requests.nmi
    let p := MicroOp.actAll (s.mode.microOps.drop k) (s, ram)
    let t := s.cycleOn policy ram
    let ram' := (ram.exchange (s.currentOp.transfer s)).2
    t = p.1.concluded nmi ∧ ram' = p.2 ∨
      ∃ j > k, t.step = j + 1 ∧ t.mode = s.mode ∧ t.requests.nmi = nmi ∧
        (MicroOp.actAll (s.mode.microOps.drop j) (t, ram')).1.concluded nmi = p.1.concluded nmi ∧
        (MicroOp.actAll (s.mode.microOps.drop j) (t, ram')).2 = p.2 := by
  intro nmi p t ram'
  let u := s.currentOp.complete s (ram.exchange (s.currentOp.transfer s)).1
  let r : Requests := ⟨false, nmi, false⟩
  have hdrop : s.mode.microOps.drop k = s.currentOp :: s.mode.microOps.drop (k + 1) := by
    rw [List.drop_eq_getElem?_toList_append, currentOp_mem_microOps s hk hw.step_lt]
    rfl
  have hp : p = MicroOp.actAll (s.mode.microOps.drop (k + 1)) (u, ram') := by
    change MicroOp.actAll (s.mode.microOps.drop k) (s, ram) = _
    rw [hdrop, MicroOp.actAll_cons, if_neg (by rw [hw.performs]; exact Bool.false_ne_true)]
    rfl
  have ht : t = (u.withRequests r).advance.withHold 0 := by
    have he := executed_eq_complete (s := s.withRequests r) hk policy
      (ram.exchange (s.currentOp.transfer s)).1
    rw [complete_withRequests] at he
    exact congrArg (fun t : State => t.advance.withHold 0) he
  have hmode : (u.withRequests r).mode = s.mode := MicroOp.mode_complete s.currentOp s _
  have hstep : (u.withRequests r).step = k + 1 :=
    (MicroOp.step_complete s.currentOp s _).trans hk
  obtain ⟨hall, hb⟩ | ⟨skipped, op, rest, hd, hskip, -, ha⟩ := advance_cases (u.withRequests r)
  · rw [hmode, hstep] at hall
    have hnone : p = (u, ram') := by
      rw [hp]
      refine MicroOp.actAll_of_passedOver fun o ho => ?_
      rw [← hall o ho, passedOver_withRequests]
    refine .inl ⟨?_, ?_⟩
    · rw [ht, hb, boundary_of_quiet (u.withRequests r) rfl, hnone]
      rfl
    · rw [hnone]
  · rw [hmode, hstep] at hd
    rw [hstep] at ha
    have hrest : s.mode.microOps.drop (k + 1 + skipped.length) = op :: rest := by
      rw [← List.drop_drop, hd, List.drop_left]
    have hnone : MicroOp.actAll skipped (u, ram') = (u, ram') := by
      refine MicroOp.actAll_of_passedOver fun o ho => ?_
      rw [← hskip o ho, passedOver_withRequests]
    have hleft : p = MicroOp.actAll (op :: rest) (u, ram') := by
      rw [hp, hd, MicroOp.actAll_append, hnone]
    have hframe : t = u.reframe u.sequence (k + 1 + skipped.length + 1) r 0 := by
      rw [ht, ha]
      rfl
    refine .inr ⟨k + 1 + skipped.length, by omega, ?_, ?_, ?_, ?_, ?_⟩
    · rw [hframe]
      rfl
    · rw [hframe]
      exact hmode
    · rw [hframe]
      rfl
    · rw [hrest, hframe, MicroOp.actAll_reframe, hleft]
      rfl
    · rw [hrest, hframe, MicroOp.actAll_reframe, hleft]

end State

namespace Computer

variable {m : Computer} {ram : Memory}

theorem instruction_of_ends (limit : Nat) (h : m.edge.computer.cpu.state.step = 0) :
    (m.instruction (limit + 1)).computer = m.edge.computer := by
  have hb : m.edge.computer.cpu.state.atBoundary = true := by
    rw [State.atBoundary, h, beq_self_eq_true]
  simp only [instruction, hb, if_true]

theorem instruction_of_goes_on (limit : Nat) (h : m.edge.computer.cpu.state.step ≠ 0) :
    (m.instruction (limit + 1)).computer = (m.edge.computer.instruction limit).computer := by
  have hb : m.edge.computer.cpu.state.atBoundary = false := by
    rw [State.atBoundary, beq_eq_false_iff_ne]
    exact h
  simp only [instruction, hb, Bool.false_eq_true, if_false]
  rfl

/-- From its second cycle on a sequence does what its micro-ops do one after the
other, however many edges that takes. -/
theorem instruction_eq_actAll {k : Nat} (hw : m.cpu.state.WellFormed)
    (hk : m.cpu.state.step = k + 1) (hm : m.memories = [ram]) (hf : ram.Full)
    (hq : m.bus.inputs = .quiet) {limit : Nat}
    (hl : m.cpu.state.mode.microOps.length ≤ k + limit) :
    let p := MicroOp.actAll (m.cpu.state.mode.microOps.drop k) (m.cpu.state, ram)
    let e := (m.instruction limit).computer
    e.cpu.state = p.1.concluded m.cpu.state.requests.nmi ∧ e.cpu.inFlight = none ∧
      e.memories = [p.2] := by
  induction limit generalizing m k ram with
  | zero =>
    have hlt := hw.step_lt
    rw [hk, Mode.cycles] at hlt
    omega
  | succ limit ih =>
    have hs := hw.running (by rw [hk]; exact Nat.succ_ne_zero k)
    obtain ⟨hcpu, hmem, hbus⟩ := edge_of_full hw hs hm hf hq
    have hstate : m.edge.computer.cpu.state = m.cpu.state.cycleOn m.cpu.config.policy ram :=
      congrArg Cpu.state hcpu
    have hwell := hw.cycleOn hs m.cpu.config.policy ram
    have hcases := State.cycleOn_cases hw hk m.cpu.config.policy ram
    simp only [← hstate] at hwell hcases
    -- more than one micro-op may be gone, for a fixup that is not due is passed over
    obtain ⟨ht, hram⟩ | ⟨j, hj, hstep, hmode, hnmi, hend, hram⟩ := hcases
    · have hzero : m.edge.computer.cpu.state.step = 0 := by
        rw [ht]
        rfl
      rw [instruction_of_ends limit hzero]
      exact ⟨ht, congrArg Cpu.inFlight hcpu, hmem.trans (congrArg (fun ram => [ram]) hram)⟩
    · have hne : m.edge.computer.cpu.state.step ≠ 0 := by
        rw [hstep]
        exact Nat.succ_ne_zero j
      have hleft : m.edge.computer.cpu.state.mode.microOps.length ≤ j + limit := by
        rw [hmode]
        omega
      obtain ⟨hs', hfly, hmem'⟩ := ih hwell hstep hmem (hf.exchange _) hbus hleft
      rw [hmode, hnmi, hend] at hs'
      rw [hmode, hram] at hmem'
      rw [instruction_of_goes_on limit hne]
      exact ⟨hs', hfly, hmem'⟩

theorem instruction_startAt (c : Cpu) (regs : Registers) (hf : ram.Full) {bus : Bus}
    (hq : bus.inputs = .quiet) (edges : Edges) {limit : Nat}
    (hl : (Instruction.decode c.config.policy (ram.peek regs.pc)).mode.cycles ≤ limit) :
    let s := (c.state.startAt regs).executed c.config.policy .fetchOpcode (ram.peek regs.pc)
    let p := MicroOp.actAll s.instruction.mode.microOps (s, ram)
    let m : Computer := ⟨(c.startAt regs, [ram]), bus, edges⟩
    let e := (m.instruction limit).computer
    e.cpu.state = p.1.concluded c.state.requests.nmi ∧ e.cpu.inFlight = none ∧
      e.memories = [p.2] := by
  intro s p m
  let r : Requests := ⟨false, c.state.requests.nmi, false⟩
  obtain ⟨n, rfl⟩ : ∃ n, limit = n + 1 := ⟨limit - 1, by rw [Mode.cycles] at hl; omega⟩
  have hw : m.cpu.state.WellFormed := State.startAt_wellFormed c.state regs
  obtain ⟨hcpu, hmem, hbus⟩ := edge_of_full hw rfl rfl hf hq
  have hfetched : m.cpu.state.cycleOn c.config.policy ram = s.reframe .instruction 1 r 0 :=
    congrArg (State.withHold · 0) (State.advance_of_step_zero (s.withRequests r) rfl)
  have hstate : m.edge.computer.cpu.state = s.reframe .instruction 1 r 0 :=
    (congrArg Cpu.state hcpu).trans hfetched
  have hwell : m.edge.computer.cpu.state.WellFormed := by
    rw [hstate, ← hfetched]
    exact hw.cycleOn rfl c.config.policy ram
  have hstep : m.edge.computer.cpu.state.step = 0 + 1 := congrArg State.step hstate
  have hmode : m.edge.computer.cpu.state.mode = s.instruction.mode := congrArg State.mode hstate
  have hlen : m.edge.computer.cpu.state.mode.microOps.length ≤ 0 + n := by
    rw [hmode, Nat.zero_add]
    exact Nat.le_of_succ_le_succ hl
  obtain ⟨he, hfly, hram⟩ := instruction_eq_actAll hwell hstep hmem hf hbus hlen
  rw [hmode, hstate, List.drop_zero, MicroOp.actAll_reframe] at he hram
  rw [instruction_of_goes_on n (by rw [hstep]; exact Nat.one_ne_zero)]
  exact ⟨he, hfly, hram⟩

end Computer

end Cmos6502
