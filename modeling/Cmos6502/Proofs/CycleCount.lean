import Cmos6502.Proofs.Operands

namespace Cmos6502

def asked (l : List Beat) (n : Nat) : Bool := (l.take n).any Beat.overflow

def Operation.spared (op : Operation) (p : Flags) (v : Byte) (next : Word) (offset : Byte) :
    Nat :=
  if op.branches p v then (next.samePage (next + offset.displacement)).toNat else 2

namespace Instruction

/-- What an instruction is spared of the cycles of its mode, by the registers before
it and by what its cycles bring, that of its opcode first. A branch is decided on
the cycle that reads its offset, by the flags as they are then. -/
def spared (i : Instruction) (r : Registers) (l : List Beat) : Nat :=
  let flags (n : Nat) : Flags := { r.p with overflow := r.p.overflow || asked l n }
  match i.mode with
  | .memory form _ =>
    let b (k : Nat) : Byte := heard l (k + 1)
    (form.addressing.contains .pageFixup && !form.fixed i r b).toNat
  | .relative => i.operation.spared (flags 2) (heard l 0) (r.pc + 2) (heard l 1)
  | .zeroPageRelative => i.operation.spared (flags 5) (heard l 2) (r.pc + 3) (heard l 4)
  | _ => 0

theorem cycles_decode_le (policy : Policy) (opcode : Byte) :
    (decode policy opcode).mode.cycles ≤ 7 := by
  revert opcode
  cases policy <;> decide

end Instruction

/-- The cycles that a sequence from its beginning on takes, by what they bring. -/
def Cpu.due (c : Cpu) (l : List Beat) : Nat :=
  let i := Instruction.decode c.config.policy (heard l 0)
  if c.state.sequence = .instruction then i.mode.cycles - i.spared c.state.regs l else 7

theorem Form.length_approach (form : Form) (pc : Word) (x z : Byte) (fixed : Bool) :
    (form.approach pc x z fixed).length +
      (form.addressing.contains .pageFixup && !fixed).toNat = form.addressing.length := by
  cases form <;> cases fixed <;> rfl

def Mode.constant (m : Mode) : Bool := m.microOps.all fun op => !op.optional

theorem State.constant_of_entry {s : State} (h : s.sequence ≠ .instruction) :
    s.mode.constant = true ∧ s.mode.microOps.length = 6 := by
  cases hq : s.sequence with
  | instruction => exact absurd hq h
  | irq | nmi | reset =>
    rw [mode, hq]
    exact ⟨rfl, rfl⟩

namespace MicroOp

variable {s t : State} {l : List Beat} {as : List (MicroOp × Transfer)}

theorem Performs.length_of_branchTaken (h : Performs [.branchTaken, .branchFixup] s l as t)
    (hc : s.latches.carry = false) :
    let next := s.regs.pc
    l.length + (if s.latches.taken then
      (next.samePage (next + s.latches.data.displacement)).toNat else 2) = 2 := by
  intro next
  cases h with
  | skip hp h₁ =>
    have hn : s.latches.taken = false := by simpa [passedOver] using hp
    rw [hn]
    cases h₁ with
    | skip _ h₂ =>
      cases h₂
      rfl
    | cycle hp _ => simp [passedOver, hc] at hp
  | @cycle _ _ _ _ b _ _ hp h₁ =>
    have hy : s.latches.taken = true := by simpa [passedOver] using hp
    -- the move owes the fixup where the pages of the two addresses differ
    have howed : (branchTaken.play s b).latches.carry =
        !next.samePage (next + s.latches.data.displacement) := by
      simp only [play, complete, State.takeBranch]
      split
      · next hpage => exact (congrArg not hpage).symm
      · next hpage => exact (congrArg not (Bool.eq_false_iff.2 hpage)).symm
    rw [hy, if_pos rfl]
    cases h₁ with
    | skip hp₁ h₂ =>
      cases h₂
      simp only [passedOver, howed, Bool.not_not] at hp₁
      rw [hp₁]
      rfl
    | cycle hp₁ h₂ =>
      cases h₂
      simp only [passedOver, howed, Bool.not_not] at hp₁
      rw [hp₁]
      rfl

theorem Performs.length_of_branching (h : Performs Mode.branching s l as t)
    (hc : s.latches.carry = false) :
    let p : Flags := { s.regs.p with overflow := s.regs.p.overflow || asked l 1 }
    l.length + s.operation.spared p s.latches.data (s.regs.pc + 1) (heard l 0) = 3 := by
  intro p
  obtain ⟨b, l, _, rfl, rfl, h₁⟩ := h.of_cons rfl
  have hp : p = (s.raise b.overflow).regs.p := by
    simp [p, asked, State.raise]
  have hrest := h₁.length_of_branchTaken hc
  rw [hp, List.length_cons, Nat.add_right_comm]
  exact congrArg (· + 1) hrest

theorem Performs.length_pos {m : Mode} (h : Performs m.microOps s l as t) : 0 < l.length := by
  obtain ⟨op, rest, hm, hp⟩ := m.microOps_eq_cons
  rw [hm] at h
  cases h with
  | skip hskip _ =>
    rw [hp] at hskip
    cases hskip
  | cycle _ _ => exact Nat.succ_pos _

theorem Performs.length_of_constant {m : Mode} (h : Performs m.microOps s l as t)
    (hm : m.constant = true) : l.length = m.microOps.length := by
  have hops (op : MicroOp) (ho : op ∈ m.microOps) : op.optional = false := by
    simpa using List.all_eq_true.1 hm op ho
  have hall := congrArg List.length (h.map_fst hops)
  rw [List.length_map, h.length_eq] at hall
  exact hall

theorem Performs.length_add_spared {i : Instruction} {r : Registers} {b : Beat}
    (h : Performs i.mode.microOps s l as t) (hi : s.instruction = i)
    (hr : s.regs = { r with pc := r.pc + 1, p.overflow := r.p.overflow || b.overflow })
    (hl : s.latches = { Latches.clear with data := b.data }) :
    l.length + i.spared r (b :: l) = i.mode.microOps.length := by
  have hc : s.latches.carry = false := by rw [hl]; rfl
  have hd : s.latches.data = b.data := by rw [hl]
  obtain ⟨opcode, op, mode⟩ := i
  cases mode with
  | memory form use =>
    obtain ⟨l₁, l₂, as₁, as₂, u, rfl, -, h₁, h₂⟩ := h.of_append
    let i : Instruction := ⟨opcode, op, .memory form use⟩
    let heard₁ := heard (l₁ ++ l₂)
    have hread : l₁.length = (form.approach (r.pc + 1) r.x (heard₁ 0)
        (form.fixed i r heard₁)).length := by
      have h := congrArg List.length (h₁.of_addressing l₂).1
      rw [List.length_map, List.length_map, h₁.length_eq, hr, hi] at h
      exact h
    have huse : l₂.length = use.transfer.length := by
      have h := congrArg List.length h₂.of_use
      rw [List.length_map, h₂.length_eq] at h
      cases use <;> exact h
    have hform := form.length_approach (r.pc + 1) r.x (heard₁ 0) (form.fixed i r heard₁)
    change (l₁ ++ l₂).length +
      (form.addressing.contains .pageFixup && !form.fixed i r heard₁).toNat =
      (form.addressing ++ use.transfer).length
    rw [List.length_append, List.length_append]
    omega
  | relative =>
    have hbranch := Performs.length_of_branching h hc
    rw [hr, hd, State.operation, hi] at hbranch
    have hpc : r.pc + 1 + 1 = r.pc + 2 := BitVec.add_assoc _ _ _
    have hp : asked (b :: l) 2 = (b.overflow || asked l 1) := rfl
    simp only [Instruction.spared, hp]
    rw [← Bool.or_assoc, ← hpc]
    exact hbranch
  | zeroPageRelative =>
    obtain ⟨b₁, _, _, rfl, rfl, h₁⟩ := h.of_cons rfl
    obtain ⟨b₂, _, _, rfl, rfl, h₂⟩ := h₁.of_cons rfl
    obtain ⟨b₃, l, _, rfl, rfl, h₃⟩ := h₂.of_cons rfl
    have hbranch := Performs.length_of_branching h₃ hc
    change l.length + s.instruction.operation.spared { s.regs.p with
      overflow := s.regs.p.overflow || b₁.overflow || b₂.overflow || b₃.overflow || asked l 1 }
      b₂.data (s.regs.pc + 1 + 1) (heard l 0) = 3 at hbranch
    rw [hr, hi] at hbranch
    have hpc : r.pc + 1 + 1 + 1 = r.pc + 3 := by
      rw [BitVec.add_assoc, BitVec.add_assoc]
      rfl
    have hp : asked (b :: b₁ :: b₂ :: b₃ :: l) 5 =
      (b.overflow || (b₁.overflow || (b₂.overflow || (b₃.overflow || asked l 1)))) := rfl
    simp only [Instruction.spared, hp, ← Bool.or_assoc, ← hpc, List.length_cons]
    rw [Nat.add_right_comm, Nat.add_right_comm (l.length + 1), Nat.add_right_comm l.length]
    exact congrArg (· + 3) hbranch
  | _ => exact h.length_of_constant rfl

end MicroOp

namespace Cpu

variable {c : Cpu} {es : List (Bus × Bus)}

theorem cycles_edge (c : Cpu) (e : Bus × Bus) :
    (c.edge e.1 e.2).cycles = c.cycles + (c.access e.1).toList.length := by
  have hdrive : (c.drive e.1).1.cycles = c.cycles := by
    simp only [drive]
    split
    · rfl
    · split <;> rfl
  have hreset (d : Cpu) : (d.checkReset e.2).cycles = d.cycles := by
    simp only [checkReset]
    split
    · rfl
    · split <;> rfl
  rw [edge, latch, hreset, access, ← hdrive, finish]
  split
  · next hf => rw [hf]; rfl
  · next hf => rw [hf]; rfl

theorem cycles_after (c : Cpu) (es : List (Bus × Bus)) :
    (c.after es).cycles = c.cycles + (c.accesses es).length := by
  induction es generalizing c with
  | nil => rfl
  | cons e es ih =>
    have hstep := cycles_edge c e
    have hrun := ih (c.edge e.1 e.2)
    rw [accesses_cons, List.length_append]
    change ((c.edge e.1 e.2).after es).cycles = _
    omega

theorem cycles_le_of_wellFormed (h : c.WellFormed) : c.state.mode.cycles ≤ 7 := by
  cases hq : c.state.sequence with
  | instruction =>
    have hmode : c.state.mode = c.state.instruction.mode := by rw [State.mode, hq]
    rw [hmode, h.decoded]
    exact Instruction.cycles_decode_le _ _
  | irq | nmi | reset =>
    rw [State.mode, hq]
    exact Nat.le_refl 7

theorem exists_spans_rest (hc : c.Reachable) {k : Nat} (hk : c.state.step = k + 1)
    (hr : c.tally (fun c e => c.recognisesReset e.2) es = 0) {asked : Bool}
    (hn : c.state.mode.microOps.length ≤ k + (beats asked es).length) :
    ∃ es₁ es₂, es = es₁ ++ es₂ ∧ c.Spans es₁ := by
  -- an edge that takes a beat takes at least one micro-op with it, so the beats last longer
  induction es generalizing c k asked with
  | nil =>
    have hlt := hc.wellFormed.state.step_lt
    rw [hk, Mode.cycles] at hlt
    simp only [beats, List.length_nil] at hn
    omega
  | cons e es ih =>
    obtain ⟨hr', ht⟩ := tally_resets_cons hr
    have onward {j : Nat} {asked' : Bool} (hstep : (c.edge e.1 e.2).state.step = j + 1)
        (hn' : (c.edge e.1 e.2).state.mode.microOps.length ≤ j + (beats asked' es).length) :
        ∃ es₁ es₂, e :: es = es₁ ++ es₂ ∧ c.Spans es₁ := by
      obtain ⟨es₁, es₂, rfl, hspans⟩ := ih (hc.edge e.1 e.2) hstep ht hn'
      have hret : c.returns e = false := by simp [returns, hstep]
      exact ⟨e :: es₁, es₂, rfl, (spans_cons hret).2 ⟨hr', hspans⟩⟩
    rw [beats] at hn
    obtain ⟨hready, hstep, hmode, -⟩ | ⟨-, -, hstep⟩ | ⟨j, -, hready, -, -, hj, hstep, hmode, -⟩ :=
      moves hc.wellFormed.state hk hr'
    · apply onward hstep
      rw [hmode]
      simpa [hready] using hn
    · have hret : c.returns e = true := by simp [returns, hk, hstep]
      exact ⟨[e], es, rfl, (spans_cons_of_returns hret).2 ⟨hr', rfl⟩⟩
    · simp only [hready, if_true, List.length_cons] at hn
      have hn' : c.state.mode.microOps.length ≤ j + (beats false es).length := by omega
      rw [← hmode] at hn'
      exact onward hstep hn'

theorem exists_spans (hc : c.Reachable) (hs : c.state.suspended = false) (h0 : c.state.step = 0)
    (hr : c.tally (fun c e => c.recognisesReset e.2) es = 0) {asked : Bool}
    (hn : 7 ≤ (beats asked es).length) :
    ∃ es₁ es₂, es = es₁ ++ es₂ ∧ c.Spans es₁ := by
  induction es generalizing c asked with
  | nil => cases hn
  | cons e es ih =>
    obtain ⟨hr', ht⟩ := tally_resets_cons hr
    suffices h : ∃ es₁ es₂, es = es₁ ++ es₂ ∧ (c.edge e.1 e.2).Spans es₁ by
      obtain ⟨es₁, es₂, rfl, hspans⟩ := h
      exact ⟨e :: es₁, es₂, rfl, (spans_cons (returns_of_step_zero h0 e)).2 ⟨hr', hspans⟩⟩
    rw [beats] at hn
    cases hready : e.1.ready.asserted with
    | false =>
      obtain ⟨-, -, hstep, hsus⟩ := state_edge_of_held hs hr' hready
      apply ih (hc.edge e.1 e.2) hsus (hstep.trans h0) ht
      simpa [hready] using hn
    | true =>
      obtain ⟨-, -, hstep⟩ := state_edge_of_ready hc.wellFormed.state hs hr' hready h0
      have hle := cycles_le_of_wellFormed (hc.edge e.1 e.2).wellFormed
      simp only [hready, if_true, List.length_cons] at hn
      rw [Mode.cycles] at hle
      have hn' : (c.edge e.1 e.2).state.mode.microOps.length ≤ 0 + (beats false es).length := by
        omega
      exact exists_spans_rest (hc.edge e.1 e.2) hstep ht hn'

theorem Spans.length_accesses (h : c.Spans es) (hc : c.Reachable)
    (hs : c.state.suspended = false) (h0 : c.state.step = 0) :
    (c.accesses es).length = c.due (beats false es) ∧ 2 ≤ (c.accesses es).length ∧
      (c.accesses es).length ≤ 7 := by
  by_cases hq : c.state.sequence = .instruction
  · obtain ⟨b, l, as, s, t, hb, ha, hi, hregs, hlatches, hp⟩ :=
      h.performs_instruction hc hs h0 hq
    have hlen : (c.accesses es).length = l.length + 1 := by
      rw [ha, List.length_cons, hp.length_eq]
    have hspared := hp.length_add_spared (r := c.state.regs) rfl hregs hlatches
    have hle := Instruction.cycles_decode_le c.config.policy b.data
    have hpos := hp.length_pos
    have hdue : c.due (b :: l) = s.instruction.mode.cycles -
        s.instruction.spared c.state.regs (b :: l) := by
      rw [due, if_pos hq, hi]
      rfl
    rw [← hi, Mode.cycles] at hle
    rw [hb, hlen, hdue, Mode.cycles]
    omega
  · obtain ⟨b, l, as, t, hb, ha, hp⟩ := h.performs_entry hc hs h0 hq
    have hlen : (c.accesses es).length = l.length + 1 := by
      rw [ha, List.length_cons, hp.length_eq]
    obtain ⟨hconstant, hsix⟩ := State.constant_of_entry hq
    have hall := hp.length_of_constant hconstant
    rw [hlen, due, if_neg hq]
    omega

theorem Spans.step_after (h : c.Spans es) : (c.after es).state.step = 0 := by
  induction es generalizing c with
  | nil => exact h.elim
  | cons e es ih =>
    change ((c.edge e.1 e.2).after es).state.step = 0
    cases hret : c.returns e with
    | false => exact ih ((spans_cons hret).1 h).2
    | true =>
      obtain ⟨-, rfl⟩ := (spans_cons_of_returns hret).1 h
      exact beq_iff_eq.1 (Bool.and_eq_true_iff.1 hret).2

/-- From its beginning on every sequence takes as many cycles as are due for it, no
fewer than two and no more than seven, however long the processor is held between
them, and it ends once there have been seven. -/
theorem cycles_exact (hc : c.Reachable) (hs : c.state.suspended = false)
    (h0 : c.state.step = 0) :
    (∀ es, c.Spans es →
      let n := c.due (beats false es)
      (c.after es).state.step = 0 ∧ (c.after es).cycles = c.cycles + n ∧ 2 ≤ n ∧ n ≤ 7) ∧
    ∀ es, c.tally (fun c e => c.recognisesReset e.2) es = 0 → 7 ≤ (beats false es).length →
      ∃ es₁ es₂, es = es₁ ++ es₂ ∧ c.Spans es₁ := by
  constructor
  · intro es hspans n
    obtain ⟨hlen, hbounds⟩ := hspans.length_accesses hc hs h0
    rw [hlen] at hbounds
    refine ⟨hspans.step_after, ?_, hbounds⟩
    rw [cycles_after, hlen]
  · intro es hr hn
    exact exists_spans hc hs h0 hr hn

/-- `BVS` over a page boundary, with overflow asked for while the processor is held
before it reads the offset. -/
theorem cycles_exact_overflow_while_held :
    let c := (powerOn .standard).startAt { Registers.powerOn with pc := 0x80FD }
    let held : Bus := { Bus.quiet with ready := .released, setOverflow := .held }
    let es := [(.quiet, { Bus.quiet with data := 0x70 }), (held, held),
      (.quiet, { Bus.quiet with data := 0x03 }), (.quiet, .quiet), (.quiet, .quiet)]
    c.Spans es ∧ c.due (beats false es) = 4 ∧ (c.after es).cycles = c.cycles + 4 := by
  intro c held es
  have hspans : c.Spans es := by decide +kernel
  have hdue : c.due (beats false es) = 4 := by decide +kernel
  obtain ⟨-, hcycles, -⟩ :=
    (cycles_exact (.startAt _ (.powerOn _)) rfl rfl).1 es hspans
  rw [hdue] at hcycles
  exact ⟨hspans, hdue, hcycles⟩

end Cpu

end Cmos6502
