import Cmos6502.Proofs.Isolation
import Cmos6502.Proofs.ResetCounter

namespace Cmos6502

def Inputs.withoutReset (i : Inputs) : Inputs := { i with reset := false }

namespace Cpu

variable (c : Cpu) (b : Bus) (i : Inputs)

theorem drive_withoutReset :
    c.drive (b.withInputs i.withoutReset) =
      ((c.drive (b.withInputs i)).1, (c.drive (b.withInputs i)).2.withInputs i.withoutReset) := by
  have hw : c.state.watch (b.withInputs i.withoutReset) = c.state.watch (b.withInputs i) := rfl
  have hr : (b.withInputs i.withoutReset).ready = (b.withInputs i).ready := rfl
  have hb : i.withoutReset.busEnable = i.busEnable := rfl
  simp only [drive, hw, hr]
  split
  · rfl
  · split
    · simp only [begin, Bus.driveTransfer_withInputs b hb]
    · rfl

theorem finish_withInputs : c.finish (b.withInputs i) = c.finish b := rfl

end Cpu

namespace Computer

structure EqButReset (m m' : Computer) : Prop where
  memories : m'.memories = m.memories
  bus : m'.bus = m.bus.withInputs m'.bus.inputs
  cpu : m'.cpu = m.cpu.withHold m'.cpu.state.resetHold

theorem EqButReset.refl (m : Computer) : m.EqButReset m :=
  ⟨rfl, (Bus.withInputs_inputs m.bus).symm, rfl⟩

theorem edge_withoutReset {m m' : Computer} (h : m.EqButReset m') {i : Inputs}
    (hn : (m.under i).cpu.recognisesReset (m.under i).settled = false) :
    let e := (m.under i).edge.computer
    let e' := (m'.under i.withoutReset).edge.computer
    (m'.under i.withoutReset).access = (m.under i).access ∧
    e'.memories = e.memories ∧ e'.bus = e.bus.withInputs i.withoutReset ∧
    e'.cpu = e.cpu.withHold 0 := by
  obtain ⟨hmem, hbus, hcpu⟩ := h
  generalize m'.cpu.state.resetHold = hold at hcpu
  have hunder : (m'.under i.withoutReset).bus = m.bus.withInputs i.withoutReset := by
    rw [bus_under, hbus]
    rfl
  have hdrive : (m'.under i.withoutReset).cpu.drive (m'.under i.withoutReset).bus =
      ((m.cpu.drive (m.bus.withInputs i)).1.withHold hold,
        (m.cpu.drive (m.bus.withInputs i)).2.withInputs i.withoutReset) := by
    rw [hunder, cpu_under, hcpu, Cpu.drive_withHold, Cpu.drive_withoutReset]
  obtain ⟨hpc, hpb⟩ :=
    respond_withInputs m.memories (m.cpu.drive (m.bus.withInputs i)).2 i.withoutReset
  have hsettled : (m'.under i.withoutReset).settled =
      (m.under i).settled.withInputs i.withoutReset := by
    rw [settled, hdrive, memories_under, hmem, hpb]
    rfl
  have hreset : (m'.under i.withoutReset).settled.reset.asserted = false := by
    rw [hsettled]
    exact Line.asserted_ofAsserted false
  refine ⟨?_, ?_, ?_, ?_⟩
  · rw [access, hdrive]
    rfl
  · rw [memories_edge, memories_edge, hdrive, memories_under, hmem, hpc]
    rfl
  · rw [bus_edge, bus_edge, hsettled]
  · have hn' : (m'.under i.withoutReset).cpu.recognisesReset
        (m'.under i.withoutReset).settled = false := Cpu.not_recognised_of_released hreset
    have hcount : (m'.under i.withoutReset).cpu.countReset
        (m'.under i.withoutReset).settled = 0 := by simp [Cpu.countReset, hreset]
    rw [cpu_edge, cpu_edge, Cpu.edge_of_not_recognised hn', Cpu.edge_of_not_recognised hn, hcount,
      Cpu.working, Cpu.working, hdrive, hsettled, Cpu.finish_withInputs, Cpu.finish_withHold]
    rfl

variable (m : Computer) (w : Nat → Inputs)

theorem follow_withoutReset {n : Nat}
    (hn : ∀ k < n, m.heldFor w (k + 1) < max 1 m.cpu.config.resetHoldEdges.toNat) :
    (m.follow w n).EqButReset (m.follow (fun k => (w k).withoutReset) n) := by
  induction n with
  | zero => exact .refl m
  | succ n ih =>
    have hlast := not_recognised_follow m w (hn n (Nat.lt_succ_self n))
    obtain ⟨-, hmem, hbus, hcpu⟩ :=
      edge_withoutReset (ih fun k hk => hn k (Nat.lt_succ_of_lt hk)) hlast
    rw [follow_succ, follow_succ]
    refine ⟨hmem, ?_, ?_⟩
    · rw [hbus, Bus.inputs_withInputs]
    · rw [hcpu]
      rfl

/-- On every edge that ends a long enough hold the processor is as at power on,
but for where it was and what it knows of its lines; and while no hold has been
long enough, the run is that without any reset. -/
theorem reset_recognised_exactly (m : Computer) (w : Nat → Inputs) (n : Nat) :
    let enough := max 1 m.cpu.config.resetHoldEdges.toNat
    let v := fun k => (w k).withoutReset
    let a := m.follow w (n + 1)
    let b := m.follow v (n + 1)
    (enough ≤ m.heldFor w (n + 1) →
      a.cpu.inFlight = none ∧
      ∃ pc nmiHeld hold, a.cpu.state =
        { State.powerOn with
          regs.pc := pc
          requests.nmiHeld := nmiHeld
          resetHold := hold }) ∧
    ((∀ k ≤ n, m.heldFor w (k + 1) < enough) →
      ((m.follow v n).under (v n)).access = ((m.follow w n).under (w n)).access ∧
      b.memories = a.memories ∧
      b.bus = a.bus.withInputs (v n) ∧
      b.cpu = { a.cpu with state := { a.cpu.state with resetHold := 0 } }) := by
  intro enough v a b
  refine ⟨fun hlong => ?_, fun hshort => ?_⟩
  · exact cpu_follow_of_recognised m w hlong
  · have hn := not_recognised_follow m w (hshort n (Nat.le_refl n))
    exact edge_withoutReset (follow_withoutReset m w fun k hk => hshort k hk.le) hn

/-- With the largest threshold, reset held from power on: after 254 edges the
processor has run its reset entry and stands where it would without the hold, and
after 300 it is at the start of a reset. -/
theorem reset_recognised_exactly_saturated :
    let m := powerOn ⟨.sized, 255⟩ []
    let w : Nat → Inputs := fun _ => { Inputs.quiet with reset := true }
    (m.follow (fun _ => .quiet) 254).cpu.state = (m.follow w 254).cpu.state.withHold 0 ∧
    (m.follow w 254).cpu.cycles = 254 ∧
    (m.follow w 300).cpu.state.sequence = .reset ∧ (m.follow w 300).cpu.state.step = 0 := by
  intro m w
  have hheld (n : Nat) : m.heldFor w n = 0 + n := heldFor_of_low m w fun _ _ => rfl
  have hlong : max 1 m.cpu.config.resetHoldEdges.toNat ≤ m.heldFor w (299 + 1) := by
    rw [hheld]
    decide
  have hshort : ∀ k ≤ 253, m.heldFor w (k + 1) < max 1 m.cpu.config.resetHoldEdges.toNat := by
    intro k hk
    have ht : max 1 m.cpu.config.resetHoldEdges.toNat = 255 := rfl
    rw [hheld, ht]
    omega
  obtain ⟨-, pc, nmiHeld, hold, hstate⟩ := (reset_recognised_exactly m w 299).1 hlong
  obtain ⟨-, -, -, hcpu⟩ := (reset_recognised_exactly m w 253).2 hshort
  have hquiet : (fun k => (w k).withoutReset) = fun _ => Inputs.quiet := rfl
  simp only [hquiet, Nat.reduceAdd] at hcpu
  refine ⟨?_, by decide +kernel, ?_, ?_⟩
  · rw [hcpu, State.withHold]
  · rw [hstate]
    rfl
  · rw [hstate]
    rfl

end Computer

end Cmos6502
