import Cmos6502.Proofs.Beats

namespace Cmos6502

namespace State

def withInstruction (s : State) (i : Instruction) : State := { s with instruction := i }

/-- The decoded instruction is not looked at before the next one has been fetched. -/
def Unread (s : State) : Prop := s.step = 0 ∨ s.sequence ≠ .instruction

end State

namespace MicroOp

def blind : MicroOp → Bool
  | fetchOpcode | dummyProgram | dummyStack _ | pushHigh | pushLow | pushStatus _ | vectorLow _
  | vectorHigh _ => true
  | _ => false

variable {op : MicroOp} (h : op.blind = true) (s : State) (i : Instruction)
include h

theorem complete_withInstruction (v : Byte) :
    op.complete (s.withInstruction i) v = (op.complete s v).withInstruction i := by
  cases op <;> first | rfl | cases h

theorem transfer_withInstruction : op.transfer (s.withInstruction i) = op.transfer s := by
  cases op <;> first | rfl | cases h

theorem not_passedOver_of_blind : op.passedOver s = false := by
  cases op <;> first | rfl | cases h

end MicroOp

namespace State

variable {s : State}

theorem mode_withInstruction (h : s.sequence ≠ .instruction) (i : Instruction) :
    (s.withInstruction i).mode = s.mode := by
  cases hq : s.sequence with
  | instruction => exact absurd hq h
  | irq | nmi | reset => simp only [mode, withInstruction, hq]

theorem blind_of_mem (h : s.sequence ≠ .instruction) {op : MicroOp}
    (hop : op ∈ s.mode.microOps) : op.blind = true := by
  have table : ∀ m ∈ [Mode.irq, .nmi, .reset], ∀ o ∈ m.microOps, o.blind = true := by decide
  apply table s.mode ?_ op hop
  cases hq : s.sequence with
  | instruction => exact absurd hq h
  | irq | nmi | reset => simp [mode, hq]

theorem Unread.sequence_ne (h : s.Unread) {k : Nat} (hk : s.step = k + 1) :
    s.sequence ≠ .instruction := by
  apply h.resolve_left
  rw [hk]
  exact Nat.succ_ne_zero k

theorem Unread.blind (h : s.Unread) : s.currentOp.blind = true := by
  cases hk : s.step with
  | zero =>
    rw [currentOp_of_step_zero s hk]
    split <;> rfl
  | succ k =>
    rw [currentOp_succ s hk, List.getD_eq_getElem?_getD]
    cases ho : s.mode.microOps[k]? with
    | none => rfl
    | some op => exact blind_of_mem (h.sequence_ne hk) (List.mem_of_getElem? ho)

theorem Unread.currentOp_eq (h : s.Unread) (i : Instruction) :
    (s.withInstruction i).currentOp = s.currentOp := by
  cases hk : s.step with
  | zero =>
    have hk' : (s.withInstruction i).step = 0 := hk
    rw [currentOp_of_step_zero _ hk, currentOp_of_step_zero _ hk']
    rfl
  | succ k =>
    have hk' : (s.withInstruction i).step = k + 1 := hk
    rw [currentOp_succ _ hk, currentOp_succ _ hk', mode_withInstruction (h.sequence_ne hk)]

theorem Unread.locksMemory_eq (h : s.Unread) (i : Instruction) :
    (s.withInstruction i).locksMemory = s.locksMemory := by
  obtain hk | hq := h
  · have hk' : (s.withInstruction i).step = 0 := hk
    simp [locksMemory, hk, hk']
  · rw [locksMemory, locksMemory, mode_withInstruction hq]
    rfl

theorem Unread.settle (h : s.Unread) : s.settle = s := by
  rw [State.settle, MicroOp.not_passedOver_of_blind h.blind, if_neg Bool.false_ne_true]

theorem boundary_withInstruction (s : State) (i : Instruction) :
    (s.withInstruction i).boundary = s.boundary.withInstruction i := by
  rw [boundary_eq, boundary_eq]
  rfl

theorem watch_withInstruction (s : State) (i : Instruction) (bus : Bus) :
    (s.withInstruction i).watch bus = (s.watch bus).withInstruction i := by
  by_cases hs : s.stopped = true
  · have hs' : (s.withInstruction i).stopped = true := hs
    rw [watch, watch, if_pos hs, if_pos hs']
  · have hs' : ¬ (s.withInstruction i).stopped = true := hs
    have hw : ((s.withInstruction i).sample bus).wakes = (s.sample bus).wakes := rfl
    rw [watch, watch, if_neg hs, if_neg hs', wake, wake, hw]
    split
    · exact boundary_withInstruction { s.sample bus with paused := false } i
    · rfl

theorem Unread.watch (h : s.Unread) (bus : Bus) : (s.watch bus).Unread := by
  rw [State.watch]
  split
  · exact h
  · rw [wake]
    split
    · exact .inl (step_boundary _)
    · exact h

theorem advance_withInstruction (h : s.sequence ≠ .instruction) (i : Instruction) :
    (s.withInstruction i).advance = s.advance.withInstruction i ∧ s.advance.Unread := by
  have hskip (op : MicroOp) : op.passedOver (s.withInstruction i) = op.passedOver s := by
    cases op <;> rfl
  have hleft : (s.withInstruction i).remaining = s.remaining := by
    simp only [remaining, hskip, mode_withInstruction h]
    rfl
  cases hr : s.remaining with
  | nil =>
    rw [advance_of_remaining_nil s hr, advance_of_remaining_nil _ (hleft.trans hr)]
    exact ⟨boundary_withInstruction s i, .inl (step_boundary s)⟩
  | cons op rest =>
    rw [advance_of_remaining_cons s hr, advance_of_remaining_cons _ (hleft.trans hr),
      mode_withInstruction h]
    exact ⟨rfl, .inr h⟩

/-- A cycle overwrites what has been decoded or makes the same of the rest of the state,
and leaves it unread. -/
theorem Unread.finish_cases (h : s.Unread) (i : Instruction) (policy : Policy) (v : Byte) :
    let op := s.currentOp
    op = .fetchOpcode ∧ (s.withInstruction i).finish policy op v = s.finish policy op v ∨
    op ≠ .fetchOpcode ∧
      (s.withInstruction i).finish policy op v = (s.finish policy op v).withInstruction i ∧
      (s.finish policy op v).Unread := by
  intro op
  by_cases hf : op = .fetchOpcode
  · refine .inl ⟨hf, ?_⟩
    rw [finish, finish, executed, executed, if_pos hf, if_pos hf,
      MicroOp.complete_withInstruction h.blind]
    rfl
  · have hq : s.sequence ≠ .instruction := by
      intro hq
      apply hf
      exact (currentOp_eq_fetchOpcode s).2 ⟨h.resolve_right (not_not_intro hq), hq⟩
    have hq' : (op.complete s v).sequence ≠ .instruction := by
      rwa [MicroOp.sequence_complete]
    refine .inr ⟨hf, ?_⟩
    rw [finish, finish, executed, executed, if_neg hf, if_neg hf,
      MicroOp.complete_withInstruction h.blind]
    exact advance_withInstruction hq' i

end State

namespace Cpu

def masked (c : Cpu) (i : Instruction) (n : Nat) : Cpu :=
  { c with state := c.state.withInstruction i, cycles := n }

/-- The processors differ at the most in the number of cycles and, unless an opcode is
known to have been fetched, in a decoded instruction that is not going to be looked at. -/
def EqButDecoded (known : Bool) (c c' : Cpu) : Prop :=
  ∃ i n, c' = c.masked i n ∧ (i = c.state.instruction ∨ known = false ∧ c.state.Unread)

def fetching (c : Cpu) : Bool := c.inFlight.any fun p => p.1 == .fetchOpcode

variable {c c' : Cpu} {known : Bool}

theorem EqButDecoded.begin (h : EqButDecoded known c c') (bus : Bus) :
    (c'.begin bus).2 = (c.begin bus).2 ∧ EqButDecoded known (c.begin bus).1 (c'.begin bus).1 := by
  obtain ⟨i, n, rfl, rfl | ⟨hk, hu⟩⟩ := h
  · have hstate : (c.masked c.state.instruction n).state = c.state := rfl
    simp only [Cpu.begin, hstate, true_and]
    exact ⟨_, n, rfl, .inl rfl⟩
  · have hu' : (c.state.withInstruction i).Unread := hu
    have hstate : (c.masked i n).state.settle = c.state.withInstruction i := hu'.settle
    simp only [Cpu.begin, hstate, hu.settle, hu.currentOp_eq, hu.locksMemory_eq,
      MicroOp.transfer_withInstruction hu.blind, true_and]
    exact ⟨i, n, rfl, .inr ⟨hk, hu⟩⟩

theorem EqButDecoded.watch (h : EqButDecoded known c c') (bus : Bus) :
    EqButDecoded known (c.idles (c.state.watch bus)) (c'.idles (c'.state.watch bus)) := by
  obtain ⟨i, n, rfl, hi⟩ := h
  refine ⟨i, n, ?_, ?_⟩
  · rw [masked, State.watch_withInstruction]
    rfl
  · apply hi.imp
    · rintro rfl
      exact (State.instruction_watch c.state bus).symm
    · rintro ⟨hk, hu⟩
      exact ⟨hk, hu.watch bus⟩

theorem EqButDecoded.drive (h : EqButDecoded known c c') (bus : Bus) :
    (c'.drive bus).2 = (c.drive bus).2 ∧ EqButDecoded known (c.drive bus).1 (c'.drive bus).1 := by
  have hdrive (d : Cpu) : d.drive bus =
      if (d.idles (d.state.watch bus)).state.suspended then
        (d.idles (d.state.watch bus), bus.releaseStatus)
      else if bus.ready.asserted then (d.idles (d.state.watch bus)).begin bus
      else (d.idles (d.state.watch bus), bus) := rfl
  have hwatch := h.watch bus
  have hsuspended : (c'.idles (c'.state.watch bus)).state.suspended =
      (c.idles (c.state.watch bus)).state.suspended := by
    obtain ⟨i, n, he, -⟩ := hwatch
    rw [he]
    rfl
  rw [hdrive, hdrive, hsuspended]
  split
  · exact ⟨rfl, hwatch⟩
  · split
    · exact hwatch.begin bus
    · exact ⟨rfl, hwatch⟩

theorem op_of_drive {bus : Bus} {op : MicroOp} {t : Transfer}
    (h : (c.drive bus).1.inFlight = some (op, t)) : op = (c.drive bus).1.state.currentOp := by
  simp only [Cpu.drive] at h ⊢
  split at h
  · cases h
  · next hs =>
    rw [if_neg hs]
    split at h
    · next hr =>
      rw [if_pos hr]
      cases h
      rfl
    · cases h

theorem finish_of_inFlight {op : MicroOp} {t : Transfer} (h : c.inFlight = some (op, t))
    (settled : Bus) :
    c.finish settled =
      c.completes (c.state.finish c.config.policy op (received t settled)) := by
  simp only [Cpu.finish, h]
  rfl

theorem EqButDecoded.finish (h : EqButDecoded known c c')
    (hop : ∀ op t, c.inFlight = some (op, t) → op = c.state.currentOp) (settled : Bus) :
    EqButDecoded (known || c.fetching) (c.finish settled) (c'.finish settled) := by
  obtain ⟨i, n, rfl, hi⟩ := h
  cases hf : c.inFlight with
  | none =>
    have he : c.finish settled = c := by simp only [Cpu.finish, hf]
    have he' : (c.masked i n).finish settled = c.masked i n := by
      simp only [Cpu.finish, masked, hf]
    rw [he, he', fetching, hf, Option.any_none, Bool.or_false]
    exact ⟨i, n, rfl, hi⟩
  | some p =>
    obtain ⟨op, t⟩ := p
    have hf' : (c.masked i n).inFlight = some (op, t) := hf
    rw [finish_of_inFlight hf, finish_of_inFlight hf']
    obtain rfl | ⟨hk, hu⟩ := hi
    · exact ⟨_, n + 1, rfl, .inl rfl⟩
    · obtain rfl := hop op t hf
      obtain ⟨-, hsame⟩ | ⟨hne, hmasked, hu'⟩ :=
        hu.finish_cases i c.config.policy (received t settled)
      · refine ⟨_, n + 1, ?_, .inl rfl⟩
        exact congrArg (c.masked i n).completes hsame
      · have hnone : c.fetching = false := by simp [fetching, hf, hne]
        refine ⟨i, n + 1, ?_, .inr ⟨?_, hu'⟩⟩
        · exact congrArg (c.masked i n).completes hmasked
        · rw [hk, hnone, Bool.or_false]

theorem EqButDecoded.checkReset (h : EqButDecoded known c c') (settled : Bus) :
    EqButDecoded known (c.checkReset settled) (c'.checkReset settled) := by
  obtain ⟨i, n, rfl, hi⟩ := h
  have hcount : (c.masked i n).state.resetHold = c.state.resetHold := rfl
  have hconfig : (c.masked i n).config = c.config := rfl
  simp only [Cpu.checkReset, hcount, hconfig]
  split
  · exact ⟨i, n, rfl, hi⟩
  · split
    · exact ⟨i, n, rfl, hi⟩
    · exact ⟨_, n, rfl, .inl rfl⟩

theorem EqButDecoded.edge (h : EqButDecoded known c c') (bus settled : Bus) :
    EqButDecoded (known || (c.drive bus).1.fetching) (c.edge bus settled)
      (c'.edge bus settled) := by
  obtain ⟨-, hdriven⟩ := h.drive bus
  have hfinished := hdriven.finish (fun _ _ => op_of_drive) settled
  exact hfinished.checkReset settled

end Cpu

/-- What the rest of a board does on an edge: it sets the wires before the processor
drives them and answers it afterwards. -/
structure Surroundings where
  prepare : Bus → Bus
  answer : Bus → Bus

namespace Cpu

def edgeAmong (p : Cpu × Bus) (e : Surroundings) : Cpu × Bus :=
  let bus := e.prepare p.2
  let settled := e.answer (p.1.drive bus).2
  (p.1.edge bus settled, settled)

def among (p : Cpu × Bus) (es : List Surroundings) : Cpu × Bus := es.foldl edgeAmong p

def fetches : Cpu × Bus → List Surroundings → Bool
  | _, [] => false
  | p, e :: es => (p.1.drive (e.prepare p.2)).1.fetching || fetches (edgeAmong p e) es

variable {c c' : Cpu} {known : Bool}

theorem EqButDecoded.among (h : EqButDecoded known c c') (bus : Bus) (es : List Surroundings) :
    (Cpu.among (c', bus) es).2 = (Cpu.among (c, bus) es).2 ∧
      EqButDecoded (known || fetches (c, bus) es) (Cpu.among (c, bus) es).1
        (Cpu.among (c', bus) es).1 := by
  induction es generalizing known c c' bus with
  | nil =>
    rw [fetches, Bool.or_false]
    exact ⟨rfl, h⟩
  | cons e es ih =>
    let settled := e.answer (c.drive (e.prepare bus)).2
    obtain ⟨hbus, -⟩ := h.drive (e.prepare bus)
    have hfirst : edgeAmong (c', bus) e = (c'.edge (e.prepare bus) settled, settled) := by
      simp only [edgeAmong, hbus, settled]
    have hrest := ih (h.edge (e.prepare bus) settled) settled
    rw [Bool.or_assoc] at hrest
    rw [Cpu.among, List.foldl_cons, hfirst]
    exact hrest

/-- Whatever surrounds them, the processors leave the same on the wires on every edge,
and differ in nothing but the number of cycles and, before they fetch an opcode, in what
they have decoded. -/
def Indistinguishable (c c' : Cpu) : Prop :=
  ∀ (bus : Bus) (es : List Surroundings),
    let p := among (c, bus) es
    let p' := among (c', bus) es
    p'.2 = p.2 ∧
    (∃ i n, p'.1 = { p.1 with state := { p.1.state with instruction := i }, cycles := n }) ∧
    (fetches (c, bus) es = true → p'.1.state = p.1.state)

theorem EqButDecoded.indistinguishable (h : EqButDecoded false c c') :
    c.Indistinguishable c' := by
  intro bus es p p'
  obtain ⟨hwires, i, n, hp, hi⟩ := h.among bus es
  refine ⟨hwires, ⟨i, n, hp⟩, ?_⟩
  intro hf
  rw [Bool.false_or, hf] at hi
  obtain rfl | ⟨hfalse, -⟩ := hi
  · have hstate := congrArg Cpu.state hp
    exact hstate
  · cases hfalse

/-- What was decoded last, or ever done, before a sequence begins does not leak. Processors
that begin a sequence and agree but for the decoded instruction cannot be told apart, nor
can any two that are started alike, whatever they were doing, if they agree in what they
know of their lines. -/
theorem decode_latch_hidden (c c' : Cpu) (hconfig : c'.config = c.config) :
    (c.state.step = 0 → c'.inFlight = c.inFlight →
      (∃ i, c'.state = { c.state with instruction := i }) → c.Indistinguishable c') ∧
    (c'.state.requests = c.state.requests → c'.state.resetHold = c.state.resetHold →
      ∀ r, (c.startAt r).Indistinguishable (c'.startAt r)) := by
  obtain ⟨config, s, f, n⟩ := c
  obtain ⟨config', s', f', n'⟩ := c'
  obtain rfl : config' = config := hconfig
  constructor
  · rintro h0 hf ⟨i, hs⟩
    obtain rfl : f' = f := hf
    obtain rfl : s' = s.withInstruction i := hs
    apply EqButDecoded.indistinguishable
    exact ⟨i, n', rfl, .inr ⟨rfl, .inl h0⟩⟩
  · intro hrequests hhold r
    have hr : s'.requests = s.requests := hrequests
    have hh : s'.resetHold = s.resetHold := hhold
    have hstate : s'.startAt r = (s.startAt r).withInstruction s'.instruction := by
      simp only [State.startAt, State.restart, State.withInstruction, hr, hh]
    apply EqButDecoded.indistinguishable
    refine ⟨s'.instruction, n', ?_, .inr ⟨rfl, .inl rfl⟩⟩
    rw [startAt, hstate]
    rfl

/-- Two instructions that do nothing, the second of them undocumented, with an interrupt
asked for: its entry is the same on the wires until the opcode after it makes the
processors equal, and so is what follows a start. -/
theorem decode_latch_hidden_entry :
    let r := { Registers.powerOn with p.interruptDisable := false }
    let low : Bus := { Bus.quiet with irq := .held }
    let after (v : Byte) : Cpu :=
      (((powerOn .standard).startAt r).edge low { low with data := v }).edge low low
    let answered : Surroundings := ⟨id, fun bus => { bus with data := 0xA9 }⟩
    let entry := List.replicate 7 answered
    let c := after 0xEA
    let c' := after 0x03
    c.Reachable ∧ c'.Reachable ∧ c.state.sequence = .irq ∧
    (among (c', .quiet) entry).1.state.instruction ≠ (among (c, .quiet) entry).1.state.instruction ∧
    (among (c', .quiet) entry).2 = (among (c, .quiet) entry).2 ∧
    (among (c', .quiet) (entry ++ [answered])).1.state =
      (among (c, .quiet) (entry ++ [answered])).1.state ∧
    (c.startAt r).Indistinguishable (c'.startAt r) := by
  intro r low after answered entry c c'
  have hreach (v : Byte) : (after v).Reachable :=
    ((Reachable.startAt r (.powerOn .standard)).edge low _).edge low low
  have hconfig : c'.config = c.config := by decide +kernel
  obtain ⟨hstep, hstart⟩ := decode_latch_hidden c c' hconfig
  have hentry : c.Indistinguishable c' := by
    apply hstep
    · decide +kernel
    · decide +kernel
    · exact ⟨c'.state.instruction, by decide +kernel⟩
  obtain ⟨hwires, -⟩ := hentry .quiet entry
  obtain ⟨-, -, hequal⟩ := hentry .quiet (entry ++ [answered])
  refine ⟨hreach _, hreach _, by decide +kernel, by decide +kernel, hwires, ?_, ?_⟩
  · apply hequal
    decide +kernel
  · apply hstart
    · decide +kernel
    · decide +kernel

end Cpu

end Cmos6502
