import Cmos6502.Cpu.Basic
import Cmos6502.Proofs.Advance

namespace Cmos6502

theorem Flags.toByte_and_fixed (p : Flags) : p.toByte &&& 0x30 = 0x30 := by
  obtain ⟨n, v, d, i, z, c⟩ := p
  cases n <;> cases v <;> cases d <;> cases i <;> cases z <;> cases c <;> rfl

theorem Instruction.nop_eq_decode (policy : Policy) :
    nop = decode policy nop.opcode := by
  cases policy <;> rfl

theorem Instruction.decode_of_bound {opcode : Byte} {op : Operation} {mode : Mode}
    (h : Opcode.bound opcode = some (op, mode)) (policy : Policy) :
    decode policy opcode = ⟨opcode, op, mode⟩ := by
  simp only [decode, h]

theorem Mode.executeImplied_notMem_dropLast (m : Mode) :
    .executeImplied ∉ m.microOps.dropLast := by
  cases m with
  | memory form use =>
    cases form <;> cases use <;> simp [microOps, Form.addressing, Use.transfer]
  | _ => simp [microOps, branching, pushing, vectored]

namespace State

/-- What holds of a state between any two half edges. `performs` says that the
current micro-op costs a cycle. -/
structure WellFormed (s : State) : Prop where
  step_lt : s.step < s.mode.cycles
  performs : s.currentOp.passedOver s = false
  clear : s.step = 0 → s.latches = .clear
  waiting : s.paused = true →
    s.step = 0 ∧ s.sequence = .instruction ∧ s.requests.nmi = false ∧ s.stopped = false
  halted : s.stopped = true → s.step = 0

variable {s : State}

theorem wellFormed_of_step_zero (h : s.step = 0) (hl : s.latches = .clear)
    (hw : s.paused = true →
      s.sequence = .instruction ∧ s.requests.nmi = false ∧ s.stopped = false) :
    s.WellFormed where
  step_lt := by
    rw [h]
    exact Nat.succ_pos _
  performs := passedOver_currentOp_of_step_zero s h
  clear _ := hl
  waiting hp := ⟨h, hw hp⟩
  halted _ := h

theorem powerOn_wellFormed : powerOn.WellFormed :=
  wellFormed_of_step_zero rfl rfl (fun h => nomatch h)

theorem startAt_wellFormed (s : State) (regs : Registers) : (s.startAt regs).WellFormed :=
  wellFormed_of_step_zero rfl rfl (fun h => nomatch h)

theorem boundary_wellFormed (h : s.paused = true → s.stopped = false) :
    s.boundary.WellFormed := by
  refine wellFormed_of_step_zero (step_boundary s) (latches_boundary s) fun hp => ?_
  rw [paused_boundary, Bool.and_eq_true, decide_eq_true_eq] at hp
  exact ⟨by rw [sequence_boundary, hp.2], nmi_boundary s, by rw [stopped_boundary, h hp.1]⟩

theorem WellFormed.update (h : s.WellFormed) (regs : Registers) (r : Requests) (hold : Byte)
    (hr : s.paused = true → r.nmi = false) :
    { s with regs := regs, requests := r, resetHold := hold }.WellFormed where
  step_lt := h.step_lt
  performs := by
    have hp (op : MicroOp) :
        op.passedOver { s with regs := regs, requests := r, resetHold := hold } =
          op.passedOver s := by cases op <;> rfl
    rw [hp]
    exact h.performs
  clear := h.clear
  waiting hp := ⟨(h.waiting hp).1, (h.waiting hp).2.1, hr hp, (h.waiting hp).2.2.2⟩
  halted := h.halted

theorem WellFormed.running (h : s.WellFormed) (hk : s.step ≠ 0) : s.suspended = false :=
  Bool.or_eq_false_iff.2
    ⟨Bool.eq_false_iff.2 fun hs => hk (h.halted hs),
      Bool.eq_false_iff.2 fun hp => hk (h.waiting hp).1⟩

theorem WellFormed.settle (h : s.WellFormed) : s.settle = s :=
  if_neg (by rw [h.performs]; exact Bool.false_ne_true)

theorem WellFormed.watch (h : s.WellFormed) (bus : Bus) : (s.watch bus).WellFormed := by
  by_cases hs : s.stopped = true
  · rw [State.watch, if_pos hs]
    exact h
  · rw [State.watch, if_neg hs, wake]
    split
    · exact boundary_wellFormed (fun hp => nomatch hp)
    · next hw =>
      refine h.update _ _ _ fun hp => ?_
      have hp' : (s.sample bus).paused = true := hp
      simp only [wakes, hp', Bool.true_and, Bool.or_eq_true, not_or, Bool.not_eq_true] at hw
      exact hw.1

theorem advance_wellFormed (hp : s.paused = true → s.stopped = false)
    (hs : s.suspended = true → s.mode.microOps.length ≤ s.step) : s.advance.WellFormed := by
  obtain ⟨-, hb⟩ | ⟨skipped, op, rest, hd, -, ho, ha⟩ := advance_cases s
  · rw [hb]
    exact boundary_wellFormed hp
  · rw [ha]
    have hl := congrArg List.length hd
    simp only [List.length_drop, List.length_append, List.length_cons] at hl
    -- a processor that has just suspended itself has no micro-op left
    have hrun : s.suspended = false := by
      refine Bool.eq_false_iff.2 fun h => ?_
      have := hs h
      omega
    simp only [suspended, Bool.or_eq_false_iff] at hrun
    have hk : s.mode.microOps[s.step + skipped.length]? = some op := by
      rw [← List.getElem?_drop, hd, List.getElem?_append_right (Nat.le_refl _), Nat.sub_self,
        List.getElem?_cons_zero]
    have hc : (s.atStep (s.step + skipped.length + 1)).currentOp = op := by
      rw [currentOp_succ _ rfl, List.getD_eq_getElem?_getD]
      change s.mode.microOps[s.step + skipped.length]?.getD _ = op
      rw [hk, Option.getD_some]
    exact {
      step_lt := by
        change s.step + skipped.length + 1 < s.mode.microOps.length + 1
        omega
      performs := by rw [hc, passedOver_atStep, ho]
      clear := fun h => nomatch h
      waiting := fun h => absurd (hrun.2.symm.trans h) Bool.false_ne_true
      halted := fun h => absurd (hrun.1.symm.trans h) Bool.false_ne_true }

@[simp] theorem step_executed (s : State) (policy : Policy) (op : MicroOp) (v : Byte) :
    (s.executed policy op v).step = s.step := by
  simp only [executed]
  split <;> exact MicroOp.step_complete op s v

theorem length_le_of_executeImplied (h : s.WellFormed) (hi : s.currentOp = .executeImplied) :
    s.mode.microOps.length ≤ s.step := by
  cases hk : s.step with
  | zero =>
    rw [currentOp_of_step_zero s hk] at hi
    split at hi <;> cases hi
  | succ k =>
    have hm := currentOp_mem_microOps s hk h.step_lt
    rw [hi] at hm
    by_contra hl
    apply Mode.executeImplied_notMem_dropLast s.mode
    apply List.mem_of_getElem? (i := k)
    rw [List.getElem?_dropLast, if_pos (by omega), hm]

theorem executed_of_executeImplied (hi : s.currentOp = .executeImplied) (policy : Policy)
    (v : Byte) : s.executed policy s.currentOp v = s.perform := by
  rw [executed, hi]
  rfl

theorem suspended_executed (h : s.WellFormed) (hs : s.suspended = false) (policy : Policy)
    (v : Byte) :
    let t := s.executed policy s.currentOp v
    (t.paused = true → t.stopped = false) ∧
      (t.suspended = true → t.mode.microOps.length ≤ t.step) := by
  obtain ⟨hstop, hpause⟩ := Bool.or_eq_false_iff.1 hs
  by_cases hi : s.currentOp = .executeImplied
  · have hend : s.mode.microOps.length ≤ s.step := length_le_of_executeImplied h hi
    rw [executed_of_executeImplied hi]
    refine ⟨fun hp => ?_, fun _ => hend⟩
    simp only [perform, hpause, hstop, Bool.false_or, beq_iff_eq] at hp ⊢
    rw [hp]
    rfl
  · obtain ⟨hp, hq⟩ := MicroOp.suspended_complete s.currentOp s v hi
    have hrun : (s.executed policy s.currentOp v).paused = false ∧
        (s.executed policy s.currentOp v).stopped = false := by
      simp only [executed]
      split
      · exact ⟨hp.trans hpause, hq.trans hstop⟩
      · exact ⟨hp.trans hpause, hq.trans hstop⟩
    refine ⟨fun _ => hrun.2, fun hsus => ?_⟩
    rw [suspended, hrun.1, hrun.2] at hsus
    cases hsus

@[simp] theorem instruction_watch (s : State) (bus : Bus) :
    (s.watch bus).instruction = s.instruction := by
  simp only [State.watch, wake]
  split
  · rfl
  · split
    · rw [instruction_boundary]
      rfl
    · rfl

@[simp] theorem instruction_advance (s : State) : s.advance.instruction = s.instruction := by
  obtain ⟨-, h⟩ | ⟨_, _, _, -, -, -, h⟩ := advance_cases s
  · rw [h, instruction_boundary]
  · rw [h]
    rfl

theorem decoded_finish {policy : Policy}
    (h : s.instruction = .decode policy s.instruction.opcode) (op : MicroOp) (v : Byte) :
    (s.finish policy op v).instruction =
      .decode policy (s.finish policy op v).instruction.opcode := by
  rw [State.finish, instruction_advance, executed]
  split
  · exact congrArg (Instruction.decode policy) (Instruction.opcode_decode policy v).symm
  · rw [MicroOp.instruction_complete]
    exact h

theorem WellFormed.finish (h : s.WellFormed) (hs : s.suspended = false) (policy : Policy)
    (v : Byte) : (s.finish policy s.currentOp v).WellFormed := by
  obtain ⟨hp, he⟩ := suspended_executed h hs policy v
  exact advance_wellFormed hp he

end State

/-- What its owner and its board can do to a processor, in any order. -/
inductive Cpu.Reachable : Cpu → Prop
  | powerOn (config : Config) : Reachable (.powerOn config)
  | drive {c : Cpu} (bus : Bus) : Reachable c → Reachable (c.drive bus).1
  | latch {c : Cpu} (bus : Bus) : Reachable c → Reachable (c.latch bus)
  | startAt {c : Cpu} (regs : Registers) : Reachable c → Reachable (c.startAt regs)
  | withRegs {c : Cpu} (regs : Registers) : Reachable c → Reachable (c.withRegs regs)

namespace Cpu

/-- A transfer in flight is that of the current micro-op. Its address and value
are from the registers it was begun with. -/
structure WellFormed (c : Cpu) : Prop where
  state : c.state.WellFormed
  decoded : c.state.instruction = .decode c.config.policy c.state.instruction.opcode
  inFlight : ∀ op t, c.inFlight = some (op, t) →
    op = c.state.currentOp ∧ ∃ regs, t = op.transfer { c.state with regs := regs }
  running : c.inFlight ≠ none → c.state.suspended = false

variable {c : Cpu}

theorem wellFormed_of_inFlight_none (hs : c.state.WellFormed)
    (hd : c.state.instruction = .decode c.config.policy c.state.instruction.opcode)
    (h : c.inFlight = none) : c.WellFormed where
  state := hs
  decoded := hd
  inFlight op t ht := by
    rw [h] at ht
    cases ht
  running hn := absurd h hn

theorem WellFormed.withRegs (h : c.WellFormed) (regs : Registers) :
    (c.withRegs regs).WellFormed where
  state := h.state.update regs c.state.requests c.state.resetHold
    fun hp => (h.state.waiting hp).2.2.1
  decoded := h.decoded
  inFlight := h.inFlight
  running := h.running

theorem WellFormed.decoded_watch (h : c.WellFormed) (bus : Bus) :
    (c.state.watch bus).instruction =
      .decode c.config.policy (c.state.watch bus).instruction.opcode := by
  rw [State.instruction_watch]
  exact h.decoded

theorem WellFormed.drive (h : c.WellFormed) (bus : Bus) : (c.drive bus).1.WellFormed := by
  have hw := h.state.watch bus
  have hd := h.decoded_watch bus
  simp only [Cpu.drive]
  split
  · exact wellFormed_of_inFlight_none hw hd rfl
  · next hs =>
    split
    · simp only [begin, hw.settle]
      exact {
        state := hw
        decoded := hd
        inFlight := by
          rintro op t ⟨⟩
          exact ⟨rfl, _, rfl⟩
        running := fun _ => Bool.eq_false_iff.2 hs }
    · exact wellFormed_of_inFlight_none hw hd rfl

theorem WellFormed.finish (h : c.WellFormed) (bus : Bus) :
    (c.finish bus).WellFormed ∧ (c.finish bus).inFlight = none := by
  cases hf : c.inFlight with
  | none =>
    have he : c.finish bus = c := by simp only [Cpu.finish, hf]
    rw [he]
    exact ⟨h, hf⟩
  | some p =>
    obtain ⟨op, t⟩ := p
    obtain ⟨rfl, -⟩ := h.inFlight op t hf
    have hs := h.running (by rw [hf]; exact Option.some_ne_none _)
    simp only [Cpu.finish, hf]
    exact ⟨wellFormed_of_inFlight_none (h.state.finish hs c.config.policy _)
      (State.decoded_finish h.decoded _ _) rfl, trivial⟩

theorem WellFormed.checkReset (h : c.WellFormed) (hn : c.inFlight = none) (bus : Bus) :
    (c.checkReset bus).WellFormed := by
  have hu (hold : Byte) : { c.state with resetHold := hold }.WellFormed :=
    h.state.update c.state.regs c.state.requests hold fun hp => (h.state.waiting hp).2.2.1
  simp only [Cpu.checkReset]
  split
  · exact wellFormed_of_inFlight_none (hu 0) h.decoded hn
  · split
    · exact wellFormed_of_inFlight_none (hu _) h.decoded hn
    · refine wellFormed_of_inFlight_none ?_ (Instruction.nop_eq_decode _) rfl
      exact State.wellFormed_of_step_zero rfl rfl (fun hp => nomatch hp)

theorem Reachable.wellFormed (h : c.Reachable) : c.WellFormed := by
  induction h with
  | powerOn config =>
    exact wellFormed_of_inFlight_none State.powerOn_wellFormed (Instruction.nop_eq_decode _) rfl
  | drive bus _ ih => exact ih.drive bus
  | latch bus _ ih =>
    obtain ⟨hw, hn⟩ := ih.finish bus
    exact hw.checkReset hn bus
  | startAt regs _ ih =>
    exact wellFormed_of_inFlight_none (State.startAt_wellFormed _ regs) ih.decoded rfl
  | withRegs regs _ ih => exact ih.withRegs regs

/-- Between any two half edges the processor is well formed, its step names a
micro-op of its mode, driving never meets a micro-op to pass over, and the loop
that passes them over after a cycle ends. -/
theorem reachable_invariant (h : c.Reachable) :
    c.WellFormed ∧
    c.state.regs.p.toByte &&& 0x30 = 0x30 ∧
    (∀ k, c.state.step = k + 1 → c.state.mode.microOps[k]? = some c.state.currentOp) ∧
    (∀ bus, (c.state.watch bus).currentOp.passedOver (c.state.watch bus) = false) ∧
    ∀ policy op v,
      State.Settles (c.state.executed policy op v).nudge (c.state.finish policy op v) := by
  have hw := h.wellFormed
  refine ⟨hw, Flags.toByte_and_fixed c.state.regs.p, fun k hk => ?_, fun bus => ?_,
    fun policy op v => ?_⟩
  · exact State.currentOp_mem_microOps c.state hk hw.state.step_lt
  · exact (hw.state.watch bus).performs
  · exact State.settles_advance (c.state.executed policy op v)

theorem reachable_invariant_overwritten_fetch :
    let c := (((powerOn .standard).startAt .powerOn).drive .quiet).1.withRegs
      { Registers.powerOn with pc := 0x1234 }
    c.Reachable ∧ c.inFlight = some (.fetchOpcode, .read 0) ∧ c.WellFormed := by
  intro c
  have h : c.Reachable := .withRegs _ (.drive _ (.startAt _ (.powerOn _)))
  exact ⟨h, rfl, (reachable_invariant h).1⟩

end Cpu

end Cmos6502
