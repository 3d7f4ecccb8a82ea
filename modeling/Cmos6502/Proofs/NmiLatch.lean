import Cmos6502.Proofs.Edge

namespace Cmos6502

theorem Instruction.mode_decode_ne_nmi (policy : Policy) (opcode : Byte) :
    (decode policy opcode).mode ≠ .nmi := by
  intro h
  have ha := accepts_decode policy opcode
  rw [h] at ha
  cases ha

namespace Mode

theorem eq_nmi_of_vectorHigh_mem {m : Mode} (h : .vectorHigh nmiVector ∈ m.microOps) :
    m = .nmi := by
  cases m with
  | nmi => rfl
  | memory form use =>
    cases form <;> cases use <;> simp [microOps, Form.addressing, Use.transfer] at h
  | _ => simp [microOps, branching, pushing, vectored, nmiVector, irqVector, resetVector] at h

theorem getElem?_microOps_nmi {k : Nat} (h : k < nmi.microOps.length) :
    nmi.microOps[k]? = some (.vectorHigh nmiVector) ↔ k = 5 := by
  have table : ∀ i < 6, nmi.microOps[i]? = some (.vectorHigh nmiVector) ↔ i = 5 := by decide
  exact table k h

end Mode

theorem MicroOp.passedOver_of_mem_nmi {op : MicroOp} (h : op ∈ Mode.nmi.microOps) (s : State) :
    op.passedOver s = false := by
  simp only [Mode.microOps, Mode.pushing, Mode.vectored, List.cons_append, List.nil_append,
    List.mem_cons, List.not_mem_nil, or_false] at h
  rcases h with rfl | rfl | rfl | rfl | rfl | rfl <;> rfl

theorem MicroOp.length_le_of_nmi_passedOver {k : Nat} {s : State}
    (h : ∀ op ∈ Mode.nmi.microOps.drop k, op.passedOver s = true) :
    Mode.nmi.microOps.length ≤ k := by
  by_contra hk
  have hl : k < Mode.nmi.microOps.length := Nat.lt_of_not_le hk
  have hmem : Mode.nmi.microOps[k] ∈ Mode.nmi.microOps.drop k := by
    rw [List.drop_eq_getElem_cons hl]
    exact List.mem_cons_self
  have hp := h _ hmem
  rw [passedOver_of_mem_nmi (List.mem_of_mem_drop hmem)] at hp
  cases hp

namespace State

variable {s : State}

/-- Non-maskable interrupts that have been noticed and not yet served. -/
def owed (s : State) : Nat := s.requests.nmi.toNat + (decide (s.sequence = .nmi)).toNat

theorem owed_boundary (s : State) : s.boundary.owed = s.requests.nmi.toNat := by
  have hn : decide (s.next = .nmi) = s.requests.nmi := by
    rw [Bool.eq_iff_iff, decide_eq_true_eq, next_eq_nmi]
  rw [owed, nmi_boundary, sequence_boundary, hn, Bool.toNat_false, Nat.zero_add]

theorem mode_of_nmi (h : s.sequence = .nmi) : s.mode = .nmi := by
  rw [mode, h]

theorem sequence_of_mode_nmi {policy : Policy}
    (hd : s.instruction = .decode policy s.instruction.opcode) (h : s.mode = .nmi) :
    s.sequence = .nmi := by
  cases hq : s.sequence with
  | nmi => rfl
  | instruction =>
    rw [mode, hq] at h
    change s.instruction.mode = .nmi at h
    rw [hd] at h
    exact absurd h (Instruction.mode_decode_ne_nmi _ _)
  | irq | reset =>
    rw [mode, hq] at h
    cases h

/-- The read that completes a non-maskable interrupt is the last cycle of its
entry and stands in no other sequence. -/
theorem currentOp_eq_nmiVector (h : s.WellFormed) {policy : Policy}
    (hd : s.instruction = .decode policy s.instruction.opcode) :
    s.currentOp = .vectorHigh nmiVector ↔ s.sequence = .nmi ∧ s.step = 6 := by
  cases hk : s.step with
  | zero =>
    rw [currentOp_of_step_zero s hk]
    split <;> simp
  | succ k =>
    have hm := currentOp_mem_microOps s hk h.step_lt
    constructor
    · intro ho
      rw [ho] at hm
      have hmode := Mode.eq_nmi_of_vectorHigh_mem (List.mem_of_getElem? hm)
      refine ⟨sequence_of_mode_nmi hd hmode, ?_⟩
      rw [hmode] at hm
      have hl := (List.getElem?_eq_some_iff.1 hm).1
      rw [(Mode.getElem?_microOps_nmi hl).1 hm]
    · rintro ⟨hq, hs⟩
      rw [mode_of_nmi hq] at hm
      obtain rfl : k = 5 := by omega
      exact (Option.some.inj hm).symm

theorem owed_finish (h : s.WellFormed) {policy : Policy}
    (hd : s.instruction = .decode policy s.instruction.opcode) (v : Byte) :
    (decide (s.currentOp = .vectorHigh nmiVector)).toNat + (s.finish policy s.currentOp v).owed
      = s.owed := by
  have hop := currentOp_eq_nmiVector h hd
  have ht : (s.executed policy s.currentOp v).owed = s.owed := by
    simp only [owed, requests_executed, sequence_executed]
  by_cases hq : s.sequence = .nmi
  · have hmode : (s.executed policy s.currentOp v).mode = .nmi :=
      mode_of_nmi (by rw [sequence_executed, hq])
    have hlt : s.step < 7 := by
      have := h.step_lt
      rw [mode_of_nmi hq] at this
      exact this
    obtain ⟨hall, hb⟩ | ⟨skipped, op, rest, hdrop, -, -, ha⟩ :=
      advance_cases (s.executed policy s.currentOp v)
    · rw [hmode, step_executed] at hall
      have hstep : s.step = 6 := by
        have hge : 6 ≤ s.step := MicroOp.length_le_of_nmi_passedOver hall
        omega
      rw [finish, hb, owed_boundary, requests_executed, decide_eq_true (hop.2 ⟨hq, hstep⟩),
        owed, decide_eq_true hq]
      exact Nat.add_comm _ _
    · have hne : s.currentOp ≠ .vectorHigh nmiVector := by
        intro ho
        rw [hmode, step_executed, (hop.1 ho).2] at hdrop
        simp [Mode.microOps, Mode.pushing, Mode.vectored] at hdrop
      rw [finish, ha, decide_eq_false hne, Bool.toNat_false, Nat.zero_add]
      exact ht
  · have hne : s.currentOp ≠ .vectorHigh nmiVector := fun ho => hq (hop.1 ho).1
    rw [finish, decide_eq_false hne, Bool.toNat_false, Nat.zero_add]
    obtain ⟨-, hb⟩ | ⟨_, _, _, -, -, -, ha⟩ := advance_cases (s.executed policy s.currentOp v)
    · rw [hb, owed_boundary, requests_executed, owed, decide_eq_false hq]
      rfl
    · rw [ha]
      exact ht

theorem owed_watch (h : s.WellFormed) (bus : Bus) :
    (s.watch bus).owed =
      s.owed +
        (!s.stopped && bus.nmi.asserted && !s.requests.nmiHeld && !s.requests.nmi).toNat := by
  have hsample : (s.sample bus).owed =
      s.owed + (bus.nmi.asserted && !s.requests.nmiHeld && !s.requests.nmi).toNat := by
    change (s.requests.nmi || (bus.nmi.asserted && !s.requests.nmiHeld)).toNat
      + (decide (s.sequence = .nmi)).toNat = _
    rw [owed, Nat.add_right_comm]
    congr 1
    cases s.requests.nmi <;> cases bus.nmi.asserted <;> cases s.requests.nmiHeld <;> rfl
  by_cases hs : s.stopped = true
  · simp [watch, hs]
  · rw [watch, if_neg hs, Bool.eq_false_iff.2 hs, Bool.not_false, Bool.true_and, ← hsample, wake]
    split
    · next hw =>
      -- a waiting processor stands before an instruction, so it owes only what it has latched
      have hp : s.paused = true := (Bool.and_eq_true_iff.1 hw).1
      have hq : (s.sample bus).sequence = .instruction := (h.waiting hp).2.1
      rw [owed_boundary, owed, hq]
      rfl
    · rfl

theorem latched_of_fall {bus : Bus}
    (hf : (!s.stopped && bus.nmi.asserted && !s.requests.nmiHeld) = true)
    (hstep : (s.watch bus).step ≠ 0) : (s.watch bus).requests.nmi = true := by
  simp only [Bool.and_eq_true, Bool.not_eq_true'] at hf
  obtain ⟨⟨hs, hl⟩, hh⟩ := hf
  simp only [watch, hs, wake, Bool.false_eq_true, ↓reduceIte] at hstep ⊢
  split at hstep
  · exact absurd (step_boundary _) hstep
  · next hw =>
    rw [if_neg hw]
    simp [sample, hl, hh]

end State

namespace Cpu

def seesFall (c : Cpu) (bus : Bus) : Bool :=
  !c.state.stopped && bus.nmi.asserted && !c.state.requests.nmiHeld

def noticesNmi (c : Cpu) (bus : Bus) : Bool := c.seesFall bus && !c.state.requests.nmi

/-- The edge completes a read of the high byte of the non-maskable vector. -/
def servesNmi (c : Cpu) (bus : Bus) : Bool :=
  (c.drive bus).1.inFlight.any fun p => p.1 == .vectorHigh nmiVector

/-- A run over edges given by the wires as the two halves of each find them. -/
def after (c : Cpu) (es : List (Bus × Bus)) : Cpu := es.foldl (fun c e => c.edge e.1 e.2) c

theorem Reachable.after {c : Cpu} (h : c.Reachable) (es : List (Bus × Bus)) :
    (c.after es).Reachable := by
  induction es generalizing c with
  | nil => exact h
  | cons e es ih => exact ih (h.edge e.1 e.2)

def tally (test : Cpu → Bus × Bus → Bool) : Cpu → List (Bus × Bus) → Nat
  | _, [] => 0
  | c, e :: es => (test c e).toNat + tally test (c.edge e.1 e.2) es

variable {c : Cpu} {bus settled : Bus}

theorem servesNmi_of_not_runs (h : c.runs bus = false) : c.servesNmi bus = false := by
  rw [servesNmi, drive_of_not_runs h]
  rfl

theorem servesNmi_of_runs (hw : c.WellFormed) (h : c.runs bus = true) :
    c.servesNmi bus = decide ((c.state.watch bus).currentOp = .vectorHigh nmiVector) := by
  rw [servesNmi, drive_of_runs hw.state h]
  rfl

theorem edge_owed (h : c.WellFormed) (hr : c.recognisesReset settled = false) :
    (c.servesNmi bus).toNat + (c.edge bus settled).state.owed =
      c.state.owed + (c.noticesNmi bus).toNat := by
  have hw := State.owed_watch h.state bus
  change _ = c.state.owed + (c.noticesNmi bus).toNat at hw
  rw [← hw]
  cases hrun : c.runs bus with
  | false =>
    rw [edge_of_not_runs hrun hr, servesNmi_of_not_runs hrun]
    exact Nat.zero_add _
  | true =>
    rw [edge_of_runs h.state hrun hr, servesNmi_of_runs h hrun]
    exact State.owed_finish (h.state.watch bus) (h.decoded_watch bus) _

theorem tally_resets_cons {es : List (Bus × Bus)} {e : Bus × Bus}
    (h : c.tally (fun c e => c.recognisesReset e.2) (e :: es) = 0) :
    c.recognisesReset e.2 = false ∧
      (c.edge e.1 e.2).tally (fun c e => c.recognisesReset e.2) es = 0 := by
  obtain ⟨hr, ht⟩ := Nat.add_eq_zero_iff.1 h
  exact ⟨Bool.toNat_eq_zero.1 hr, ht⟩

theorem nmiHeld_finish (s : State) (policy : Policy) (op : MicroOp) (v : Byte) :
    (s.finish policy op v).requests.nmiHeld = s.requests.nmiHeld := by
  rw [State.finish, ← State.requests_executed s policy op v]
  obtain ⟨-, h⟩ | ⟨_, _, _, -, -, -, h⟩ := State.advance_cases (s.executed policy op v)
  · rw [h, State.boundary_eq]
  · rw [h]
    rfl

theorem nmiHeld_watch (s : State) (bus : Bus) :
    (s.watch bus).requests.nmiHeld =
      if s.stopped then s.requests.nmiHeld else bus.nmi.asserted := by
  simp only [State.watch, State.wake]
  split
  · rfl
  · split
    · rw [State.boundary_eq]
      rfl
    · rfl

theorem nmiHeld_checkReset (c : Cpu) (bus : Bus) :
    (c.checkReset bus).state.requests.nmiHeld = c.state.requests.nmiHeld := by
  simp only [checkReset]
  split
  · rfl
  · split <;> rfl

theorem nmiHeld_edge (h : c.WellFormed) :
    (c.edge bus settled).state.requests.nmiHeld =
      if c.state.stopped then c.state.requests.nmiHeld else bus.nmi.asserted := by
  rw [← nmiHeld_watch, edge, latch, nmiHeld_checkReset]
  cases hrun : c.runs bus with
  | false =>
    rw [drive_of_not_runs hrun]
    rfl
  | true =>
    rw [drive_of_runs h.state hrun]
    exact nmiHeld_finish _ _ _ _

/-- A line that stays low is noticed once at the most, and not at all when it was
low before. -/
theorem tally_noticesNmi_of_low (h : c.Reachable) {es : List (Bus × Bus)}
    (hr : c.tally (fun c e => c.recognisesReset e.2) es = 0)
    (hlow : ∀ e ∈ es, e.1.nmi.asserted = true) :
    c.tally (fun c e => c.noticesNmi e.1) es ≤ (!c.state.requests.nmiHeld).toNat := by
  induction es generalizing c with
  | nil => exact Nat.zero_le _
  | cons e es ih =>
    obtain ⟨hr', ht⟩ := tally_resets_cons hr
    have hl := hlow e List.mem_cons_self
    have htail := ih (h.edge e.1 e.2) ht fun f hf => hlow f (List.mem_cons_of_mem e hf)
    rw [nmiHeld_edge h.wellFormed, hl] at htail
    rw [tally, noticesNmi, seesFall, hl]
    cases hs : c.state.stopped with
    | true => simpa [hs] using htail
    | false =>
      have hzero := Nat.le_zero.1 (by simpa [hs] using htail)
      rw [hzero]
      cases c.state.requests.nmiHeld <;> cases c.state.requests.nmi <;> decide

theorem owed_of_seesFall (h : c.WellFormed) (hr : c.recognisesReset settled = false)
    (hf : c.seesFall bus = true) : 0 < (c.edge bus settled).state.owed := by
  have hsum : (c.servesNmi bus).toNat + (c.edge bus settled).state.owed =
      c.state.owed + (c.noticesNmi bus).toNat := edge_owed h hr
  cases hserve : c.servesNmi bus with
  | false =>
    have hpos : 0 < c.state.owed + (c.noticesNmi bus).toNat := by
      rw [noticesNmi, hf, Bool.true_and, State.owed]
      cases c.state.requests.nmi with
      | false => exact Nat.add_pos_right _ Nat.one_pos
      | true => exact Nat.add_pos_left (Nat.add_pos_left Nat.one_pos _) _
    rw [hserve, Bool.toNat_false, Nat.zero_add] at hsum
    rw [hsum]
    exact hpos
  | true =>
    -- the service on this edge is of an older request, so the new one is still latched
    have hrun : c.runs bus = true := by
      by_contra hn
      rw [servesNmi_of_not_runs (Bool.eq_false_iff.2 hn)] at hserve
      cases hserve
    have hop := (servesNmi_of_runs h hrun).symm.trans hserve
    obtain ⟨hq, hstep⟩ :=
      (State.currentOp_eq_nmiVector (h.state.watch bus) (h.decoded_watch bus)).1
        (of_decide_eq_true hop)
    have hlatched : (c.state.watch bus).requests.nmi = true :=
      State.latched_of_fall hf (by rw [hstep]; decide)
    have howed : (c.state.watch bus).owed = 2 := by
      rw [State.owed, hlatched, hq]
      rfl
    have hw : (c.state.watch bus).owed = c.state.owed + (c.noticesNmi bus).toNat :=
      State.owed_watch h.state bus
    rw [hserve, Bool.toNat_true, ← hw, howed] at hsum
    omega

/-- Over any run without a reset, what is served and what is then owed is what
was owed before and what the run has noticed. -/
theorem nmi_served_once (h : c.Reachable) {es : List (Bus × Bus)}
    (hr : c.tally (fun c e => c.recognisesReset e.2) es = 0) :
    c.tally (fun c e => c.servesNmi e.1) es + (c.after es).state.owed =
      c.state.owed + c.tally (fun c e => c.noticesNmi e.1) es ∧
    ((∀ e ∈ es, e.1.nmi.asserted = true) →
      c.tally (fun c e => c.noticesNmi e.1) es ≤ (!c.state.requests.nmiHeld).toNat) ∧
    ∀ bus settled, c.recognisesReset settled = false → c.seesFall bus = true →
      0 < (c.edge bus settled).state.owed := by
  refine ⟨?_, tally_noticesNmi_of_low h hr,
    fun _ _ hr' hf => owed_of_seesFall h.wellFormed hr' hf⟩
  induction es generalizing c with
  | nil => exact Nat.zero_add _
  | cons e es ih =>
    obtain ⟨hr', ht⟩ := tally_resets_cons hr
    have hstep : (c.servesNmi e.1).toNat + (c.edge e.1 e.2).state.owed =
        c.state.owed + (c.noticesNmi e.1).toNat := edge_owed h.wellFormed hr'
    have hrun := ih (h.edge e.1 e.2) ht
    rw [tally, tally]
    change (c.servesNmi e.1).toNat + _ + ((c.edge e.1 e.2).after es).state.owed = _
    omega

/-- Ten edges with the line low and nothing but `NOP` on the bus serve one
interrupt. -/
theorem nmi_served_once_held_low :
    let c := (powerOn .standard).startAt .powerOn
    let low : Bus := { Bus.quiet with nmi := .held, data := 0xEA }
    let es := List.replicate 10 (low, low)
    c.tally (fun c e => c.recognisesReset e.2) es = 0 ∧
    c.tally (fun c e => c.noticesNmi e.1) es = 1 ∧
    c.tally (fun c e => c.servesNmi e.1) es = 1 ∧
    (c.after es).state.owed = 0 := by
  intro c low es
  have hr : c.tally (fun c e => c.recognisesReset e.2) es = 0 := by decide +kernel
  have hs : c.tally (fun c e => c.servesNmi e.1) es = 1 := by decide +kernel
  have ho : (c.after es).state.owed = 0 := by decide +kernel
  obtain ⟨h, -⟩ := nmi_served_once (.startAt _ (.powerOn _)) hr
  have h0 : c.state.owed = 0 := rfl
  rw [hs, ho, h0] at h
  exact ⟨hr, (Nat.zero_add _).symm.trans h.symm, hs, ho⟩

end Cpu

end Cmos6502
