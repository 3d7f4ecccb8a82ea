import Cmos6502.Proofs.CycleCount

namespace Cmos6502

namespace MicroOp

/-- The micro-ops that make something of the byte they read: fetches of an opcode or
an operand byte, reads of the operand, of a pointer or of a vector, and pulls. -/
def consumes : MicroOp → Bool
  | fetchOpcode | readImmediate | operandLow | operandHigh | operandHighIndexed _ | branchOffset
  | jump => true
  | readEffective | latchEffective => true
  | pointerLow | pointerHigh | pointerHighIndexed _ | pointerLowAbsolute | jumpThrough => true
  | vectorLow _ | vectorHigh _ => true
  | pullValue | pullStatus | pullLow | pullHigh | pullJump => true
  | _ => false

theorem complete_of_not_consumes {op : MicroOp} (h : op.consumes = false) (s : State)
    (v w : Byte) : op.complete s v = op.complete s w := by
  cases op <;> first | rfl | cases h

end MicroOp

theorem State.executed_congr {op : MicroOp} {v w : Byte} (h : op.consumes = true → v = w)
    (s : State) (policy : Policy) : s.executed policy op v = s.executed policy op w := by
  cases hc : op.consumes with
  | true => rw [h hc]
  | false =>
    have hf : op ≠ .fetchOpcode := by
      rintro rfl
      cases hc
    rw [executed, executed, if_neg hf, if_neg hf]
    exact MicroOp.complete_of_not_consumes hc s v w

namespace Operation

theorem transform_congr (op : Operation) {r r' : Registers} (ha : r'.a = r.a)
    (hc : r'.p.carry = r.p.carry) (v : Byte) : (op.transform r' v).1 = (op.transform r v).1 := by
  cases op with
  | modify op => cases op <;> simp [transform, ModifyOp.apply, ModifyOp.apply.shifted, ha, hc]
  | _ => rfl

end Operation

namespace MicroOp

def addresses : MicroOp → Bool
  | operandLow | operandHigh | operandHighIndexed _ | indexZeroPage _ | pointerLow | pointerHigh
  | pointerHighIndexed _ | pageFixup => true
  | _ => false

theorem addresses_of_mem {form : Form} {op : MicroOp} (h : op ∈ form.addressing) :
    op.addresses = true := by
  have table : ∀ o ∈ form.addressing, o.addresses = true := by
    cases form <;> simp [Form.addressing, addresses]
  exact table op h

theorem regs_complete_of_addresses {op : MicroOp} (h : op.addresses = true) (s : State)
    (v : Byte) :
    (op.complete s v).regs.a = s.regs.a ∧
      (op.complete s v).regs.p.carry = s.regs.p.carry := by
  cases op <;> first | exact ⟨rfl, rfl⟩ | cases h

variable {ops : List MicroOp} {s t : State} {l : List Beat} {as : List (MicroOp × Transfer)}

theorem Performs.instruction_eq (h : Performs ops s l as t) : t.instruction = s.instruction := by
  induction h with
  | done => rfl
  | skip _ _ ih => exact ih
  | cycle _ _ ih => exact ih.trans (instruction_complete _ _ _)

theorem Performs.regs_of_addresses (h : Performs ops s l as t)
    (hops : ∀ op ∈ ops, op.addresses = true) :
    t.regs.a = s.regs.a ∧ t.regs.p.carry = s.regs.p.carry := by
  induction h with
  | done => exact ⟨rfl, rfl⟩
  | skip _ _ ih => exact ih fun o ho => hops o (List.mem_cons_of_mem _ ho)
  | @cycle op _ s _ b _ _ _ _ ih =>
    obtain ⟨ha, hc⟩ := ih fun o ho => hops o (List.mem_cons_of_mem _ ho)
    obtain ⟨ha', hc'⟩ :=
      regs_complete_of_addresses (hops op List.mem_cons_self) (s.raise b.overflow) b.data
    exact ⟨ha.trans ha', hc.trans hc'⟩

theorem Performs.of_modify (h : Performs Use.modify.transfer s l as t) :
    let a := s.latches.address
    ∃ first again last, l = [first, again, last] ∧
      as = [(.latchEffective, .read a), (.modifyLatched, .read a),
        (.writeLatched, .write a (s.operation.transform s.regs first.data).1)] := by
  intro a
  obtain ⟨first, _, _, rfl, rfl, h₁⟩ := h.of_cons rfl
  obtain ⟨again, _, _, rfl, rfl, h₂⟩ := h₁.of_cons rfl
  obtain ⟨last, _, _, rfl, rfl, h₃⟩ := h₂.of_cons rfl
  cases h₃
  refine ⟨first, again, last, rfl, ?_⟩
  have hv : (s.operation.transform ((s.raise first.overflow).raise again.overflow).regs
      first.data).1 = (s.operation.transform s.regs first.data).1 := by
    apply Operation.transform_congr <;> rfl
  rw [← hv]
  rfl

end MicroOp

namespace Cpu

/-- Two edges that differ for the processor in nothing but bytes that it does not
consume, and the wires and lines that it does not look at. -/
def SeesAlike (c : Cpu) (e e' : Bus × Bus) : Prop :=
  e'.1.irq = e.1.irq ∧ e'.1.nmi = e.1.nmi ∧ e'.1.ready = e.1.ready ∧
  e'.1.setOverflow = e.1.setOverflow ∧ e'.2.reset = e.2.reset ∧
  ((c.access e.1).any (fun a => a.1.consumes) = true → e'.2.data = e.2.data)

instance (c : Cpu) (e e' : Bus × Bus) : Decidable (c.SeesAlike e e') :=
  inferInstanceAs (Decidable (_ ∧ _))

inductive Alike : Cpu → List (Bus × Bus) → List (Bus × Bus) → Prop
  | done (c : Cpu) : Alike c [] []
  | edge {c : Cpu} {e e' : Bus × Bus} {es es' : List (Bus × Bus)} :
      c.SeesAlike e e' → Alike (c.edge e.1 e.2) es es' → Alike c (e :: es) (e' :: es')

variable {c : Cpu} {e e' : Bus × Bus} {es es' : List (Bus × Bus)}

theorem SeesAlike.drive_eq (h : c.SeesAlike e e') : (c.drive e'.1).1 = (c.drive e.1).1 := by
  obtain ⟨hirq, hnmi, hready, hoverflow, -, -⟩ := h
  have hwatch : c.state.watch e'.1 = c.state.watch e.1 := by
    rw [State.watch, State.watch, State.sample, State.sample, hirq, hnmi, hoverflow]
  simp only [drive, hwatch, hready]
  split
  · rfl
  · split <;> rfl

theorem SeesAlike.edge_eq (h : c.SeesAlike e e') : c.edge e'.1 e'.2 = c.edge e.1 e.2 := by
  have hdrive := h.drive_eq
  obtain ⟨-, -, -, -, hreset, hdata⟩ := h
  have hfinish : (c.drive e.1).1.finish e'.2 = (c.drive e.1).1.finish e.2 := by
    cases hf : (c.drive e.1).1.inFlight with
    | none => simp only [finish, hf]
    | some p =>
      obtain ⟨op, t⟩ := p
      have hv : op.consumes = true → received t e'.2 = received t e.2 := by
        intro hc
        have hd : e'.2.data = e.2.data := by
          apply hdata
          rw [access, hf]
          exact hc
        -- a write brings its own byte back, whatever is on the wires
        cases t with
        | read a => exact hd
        | write a v => rfl
      simp only [finish, hf, State.finish, State.executed_congr hv]
  rw [edge, edge, latch, latch, hdrive, hfinish, checkReset, checkReset, hreset]

theorem Alike.after_take (h : c.Alike es es') (n : Nat) :
    c.after (es'.take n) = c.after (es.take n) := by
  induction h generalizing n with
  | done c => rfl
  | @edge c e e' es es' hsees _ ih =>
    cases n with
    | zero => rfl
    | succ n =>
      change (c.edge e'.1 e'.2).after (es'.take n) = (c.edge e.1 e.2).after (es.take n)
      rw [hsees.edge_eq]
      exact ih n

theorem Alike.accesses_eq (h : c.Alike es es') : c.accesses es' = c.accesses es := by
  induction h with
  | done c => rfl
  | @edge c e e' es es' hsees _ ih =>
    have haccess : c.access e'.1 = c.access e.1 := congrArg inFlight hsees.drive_eq
    rw [accesses_cons, accesses_cons, haccess, hsees.edge_eq, ih]

theorem Spans.writes_back (h : c.Spans es) (hc : c.Reachable) (hs : c.state.suspended = false)
    (h0 : c.state.step = 0) (hq : c.state.sequence = .instruction) {form : Form} :
    let i := Instruction.decode c.config.policy (heard (beats false es) 0)
    i.mode = .memory form .modify →
      ∃ l as a first again last, beats false es = l ++ [first, again, last] ∧
        c.accesses es = as ++ [(.latchEffective, .read a), (.modifyLatched, .read a),
          (.writeLatched, .write a (i.operation.transform c.state.regs first.data).1)] := by
  intro i hmode
  obtain ⟨b, l, as, s, t, hb, ha, hi, hregs, -, hp⟩ := h.performs_instruction hc hs h0 hq
  have hi' : s.instruction = i := by
    change _ = Instruction.decode c.config.policy (heard (beats false es) 0)
    rw [hi, hb]
    rfl
  rw [hi', hmode] at hp
  obtain ⟨l₁, l₂, as₁, as₂, u, rfl, rfl, h₁, h₂⟩ := hp.of_append
  obtain ⟨ha', hcarry⟩ := h₁.regs_of_addresses fun _ => MicroOp.addresses_of_mem
  obtain ⟨first, again, last, rfl, rfl⟩ := h₂.of_modify
  refine ⟨b :: l₁, (.fetchOpcode, .read c.state.regs.pc) :: as₁, u.latches.address, first, again,
    last, hb, ?_⟩
  have hv : (u.operation.transform u.regs first.data).1 =
      (i.operation.transform c.state.regs first.data).1 := by
    rw [State.operation, h₁.instruction_eq, hi']
    apply Operation.transform_congr
    · rw [ha', hregs]
      rfl
    · rw [hcarry, hregs]
      rfl
  rw [ha, hv]
  rfl

/-- Two runs that the processor sees alike are the same for it after every edge and
make the same accesses, whatever bytes it does not consume. So an instruction that
writes back works on what the first read of its operand has found. -/
theorem consumption (hc : c.Reachable) :
    (∀ es es', c.Alike es es' →
      (∀ n, c.after (es'.take n) = c.after (es.take n)) ∧ c.accesses es' = c.accesses es) ∧
    (c.state.suspended = false → c.state.step = 0 → c.state.sequence = .instruction →
      ∀ es, c.Spans es → ∀ form,
        let i := Instruction.decode c.config.policy (heard (beats false es) 0)
        i.mode = .memory form .modify →
        ∃ l as a first again last, beats false es = l ++ [first, again, last] ∧
          c.accesses es = as ++ [(.latchEffective, .read a), (.modifyLatched, .read a),
            (.writeLatched, .write a (i.operation.transform c.state.regs first.data).1)]) :=
  ⟨fun _ _ h => ⟨h.after_take, h.accesses_eq⟩,
    fun hs h0 hq _ h _ => h.writes_back hc hs h0 hq⟩

/-- `INC $10` run twice: the second time the bus is disabled and everything it does not
consume is different. -/
theorem consumption_increment :
    let c := (powerOn .standard).startAt .powerOn
    let brings (v : Byte) : Bus × Bus := (.quiet, { Bus.quiet with data := v })
    let brings' (v : Byte) : Bus × Bus :=
      ({ Bus.quiet with busEnable := .released, address := 0xBEEF },
        { Bus.quiet with busEnable := .released, data := v })
    let es := [0xE6, 0x10, 0x41, 0x41, 0x00].map brings
    let es' := [0xE6, 0x10, 0x41, 0x99, 0x77].map brings'
    c.Alike es es' ∧ c.Spans es ∧ c.after es' = c.after es ∧
      ∃ as a, c.accesses es' = as ++ [(.latchEffective, .read a), (.modifyLatched, .read a),
        (.writeLatched, .write a 0x42)] := by
  intro c brings brings' es es'
  have halike : c.Alike es es' := by
    apply Alike.edge (by decide +kernel)
    apply Alike.edge (by decide +kernel)
    apply Alike.edge (by decide +kernel)
    apply Alike.edge (by decide +kernel)
    apply Alike.edge (by decide +kernel)
    exact .done _
  have hspans : c.Spans es := by decide +kernel
  have hmode : (Instruction.decode c.config.policy (heard (beats false es) 0)).mode =
      .memory .zeroPage .modify := by decide +kernel
  obtain ⟨hseen, hmodify⟩ := consumption (c := c) (.startAt _ (.powerOn _))
  obtain ⟨hafter, haccesses⟩ := hseen es es' halike
  obtain ⟨l, as, a, first, again, last, hbeats, hlast⟩ :=
    hmodify rfl rfl rfl es hspans .zeroPage hmode
  have hsplit : [⟨0xE6, false⟩, ⟨0x10, false⟩] ++ [⟨0x41, false⟩, ⟨0x41, false⟩, ⟨0x00, false⟩] =
      l ++ [first, again, last] := Eq.trans (by decide +kernel) hbeats
  obtain ⟨-, hrest⟩ := List.append_inj' hsplit rfl
  cases hrest
  refine ⟨halike, hspans, hafter 5, as, a, ?_⟩
  have hvalue : ((Instruction.decode c.config.policy (heard (beats false es) 0)).operation.transform
      c.state.regs 0x41).1 = 0x42 := by decide +kernel
  rw [haccesses, hlast, hvalue]

end Cpu

end Cmos6502
