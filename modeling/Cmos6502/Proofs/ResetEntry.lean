import Cmos6502.Proofs.NmiLatch
import Cmos6502.Proofs.SharedBus
import Cmos6502.Proofs.Steady

namespace Cmos6502

theorem Inputs.quiet_but_irq {i : Inputs} (h : i = { quiet with irq := i.irq }) :
    i.nmi = false ∧ quiet.SameButInterrupts i := by
  have hn : i.nmi = false := by rw [h]; rfl
  refine ⟨hn, ?_⟩
  rw [SameButInterrupts, hn]
  exact h

theorem Mode.reads_of_mem_reset :
    ∀ op ∈ reset.microOps, op.optional = false ∧ op.writes = false := by
  decide

theorem MicroOp.actAll_reset (s : State) (ram : Memory) :
    actAll Mode.reset.microOps (s, ram) =
      ({ s with
          regs.pc := .ofBytes (ram.peek 0xFFFC) (ram.peek 0xFFFD)
          regs.p.interruptDisable := true
          regs.p.decimal := false
          latches.data := ram.peek 0xFFFC }, ram) := by
  have hops : Mode.reset.microOps =
      [.dummyProgram, .dummyStack 0, .dummyStack 1, .dummyStack 2] ++ Mode.vectored resetVector :=
    rfl
  rw [hops, actAll_append]
  exact actAll_vectored s ram resetVector

def State.restarted (vector : Word) (irq : Bool) : State where
  regs := { a := 0, x := 0, y := 0, sp := 0xFD, pc := vector, p := .ofByte 0x34 }
  instruction := .nop
  sequence := .instruction
  step := 0
  latches := .clear
  requests := ⟨irq, false, false⟩
  resetHold := 0
  paused := false
  stopped := false

namespace Computer

theorem follow_reset {m : Computer} (hm : m.cpu.Reachable) {pc : Word} {nmiHeld : Bool}
    {hold : Byte} (hstate : m.cpu.state = { State.powerOn with
      regs.pc := pc, requests.nmiHeld := nmiHeld, resetHold := hold })
    {ram : Memory} (hmem : m.memories = [ram]) (hl : ram.length = 0x10000) {w : Nat → Inputs}
    (hw : ∀ k < 7, w k = { Inputs.quiet with irq := (w k).irq }) :
    (∀ k < 7, (m.follow w (k + 1)).bus.isWrite = false) ∧
    (m.follow w 7).memories = [ram] ∧
    (m.follow w 7).cpu.state =
      .restarted (.ofBytes (ram.peek 0xFFFC) (ram.peek 0xFFFD)) (w 6).irq := by
  have hbegun : m.begun ram = m.cpu.state := by
    rw [begun, hstate]
    rfl
  have hmode : (m.begun ram).mode = .reset := by
    rw [hbegun, hstate]
    rfl
  have hrun : m.cpu.state.suspended = false := by rw [hstate]; rfl
  have hzero : m.cpu.state.step = 0 := by rw [hstate]; rfl
  have hnmi : m.cpu.state.requests.nmi = false := by rw [hstate]; rfl
  have hops : ∀ op ∈ (m.begun ram).mode.microOps, op.optional = false ∧ op.writes = false := by
    rw [hmode]
    exact Mode.reads_of_mem_reset
  have hserves : ram.Serves (m.begun ram).mode.microOps :=
    ⟨hl, .inr fun op ho => (hops op ho).2⟩
  have hinputs := fun k hk => Inputs.quiet_but_irq (hw k hk)
  refine ⟨fun k hk => ?_, ?_⟩
  · have hlen : k ≤ (m.begun ram).mode.microOps.length := by
      rw [hmode]
      exact Nat.le_of_lt_succ hk
    obtain ⟨-, -, hbus⟩ := follow_steady (w := w) hm hrun hzero hmem hserves
      (fun op ho => (hops op ho).1) hlen fun j hj => (hinputs j (by omega)).2
    exact hbus fun op ho => (hops op ho).2
  · obtain ⟨hend, hmems⟩ := follow_steady_end (w := w) hm hrun hzero hmem hserves
      (fun op ho => (hops op ho).1) (by rw [hmode]; exact fun k hk => (hinputs k hk).2)
    have hcycles : Mode.reset.cycles = 6 + 1 := rfl
    rw [hmode, hcycles, hbegun, MicroOp.actAll_reset,
      known_of_nmi_released m fun k hk => (hinputs k (by omega)).1, hnmi, hstate] at hend
    rw [hmode, hcycles, MicroOp.actAll_reset] at hmems
    refine ⟨hmems, hend.trans ?_⟩
    rw [State.boundary_eq, (State.next_eq_instruction _).2 ⟨rfl, Bool.and_false _⟩]
    rfl

/-- After a hold of reset that is long enough, and seven edges with nothing asked
for but maskable interrupts, nothing is left of what the processor was doing. No
edge of the entry writes. -/
theorem reset_wipes_history {m : Computer} (hm : m.cpu.Reachable) {ram : Memory}
    (hmem : m.memories = [ram]) (hl : ram.length = 0x10000) {w : Nat → Inputs} {n : Nat}
    (hn : max 1 m.cpu.config.resetHoldEdges.toNat ≤ n) (hlow : ∀ k < n, (w k).reset = true)
    (hfree : ∀ k < 7, w (n + k) = { Inputs.quiet with irq := (w (n + k)).irq }) :
    let e := m.follow w (n + 7)
    (∀ k < 7, (m.follow w (n + k + 1)).bus.isWrite = false) ∧
    e.memories = (m.follow w n).memories ∧
    e.cpu.inFlight = none ∧
    e.cpu.state =
      .restarted (.ofBytes (e.peek 0xFFFC) (e.peek 0xFFFD)) (w (n + 6)).irq := by
  intro e
  obtain ⟨k, rfl⟩ : ∃ k, n = k + 1 := ⟨n - 1, by omega⟩
  have hheld : max 1 m.cpu.config.resetHoldEdges.toNat ≤ m.heldFor w (k + 1) := by
    rw [heldFor_of_low m w hlow]
    omega
  obtain ⟨-, pc, nmiHeld, hold, hstate⟩ := cpu_follow_of_recognised m w hheld
  obtain ⟨ram', hmem', hl', -⟩ := memories_follow_single hmem w (k + 1)
  obtain ⟨hwrites, hmems, hend⟩ :=
    follow_reset (reachable_follow hm w (k + 1)) hstate hmem' (hl'.trans hl) hfree
  have hfollow (j : Nat) := follow_add m w (k + 1) j
  have he : e.memories = [ram'] := (congrArg memories (hfollow 7)).trans hmems
  have hpeek := peek_of_whole he (Memory.contains_of_length (hl'.trans hl))
  refine ⟨fun j hj => ?_, he.trans hmem'.symm, ?_, ?_⟩
  · rw [Nat.add_assoc, hfollow]
    exact hwrites j hj
  · have hlast : e.cpu = _ := cpu_follow_succ m w (k + 1 + 6)
    rw [hlast]
    exact Cpu.inFlight_edge
  · rw [hpeek, hpeek]
    exact (congrArg (fun e => e.cpu.state) (hfollow 7)).trans hend

/-- A processor stopped by `STP`, with its vector at `$0200` in a read-only memory:
reset for two edges, with the non-maskable line low as well, and then a maskable
request that stays. -/
theorem reset_wipes_history_stopped :
    let rom : Memory := { Memory.blank.poke 0xFFFD 0x02 with writable := false }
    let stp : Bus := { Bus.quiet with data := 0xDB }
    let c := ((Cpu.powerOn .standard).startAt .powerOn).after [(stp, stp), (stp, stp), (stp, stp)]
    let m : Computer := ⟨(c, [rom]), .quiet, ⟨0⟩⟩
    let w : Nat → Inputs := fun k =>
      { Inputs.quiet with irq := true, nmi := decide (k < 2), reset := decide (k < 2) }
    let e := m.follow w 9
    m.cpu.state.stopped = true ∧ e.memories = [rom] ∧ e.cpu.state = .restarted 0x0200 true ∧
      (Flags.ofByte 0x34).toByte = 0x34 := by
  intro rom stp c m w e
  have hl : rom.length = 0x10000 := (Memory.full_blank.poke 0xFFFD 0x02).length
  have hrom : rom.writable = false := rfl
  have hpeek (a : Word) : rom.peek a = if a = 0xFFFD then 0x02 else 0 := by
    rw [Memory.peek_readOnly, Memory.full_blank.peek_poke, Memory.peek_blank]
  clear_value rom
  have hreach : m.cpu.Reachable := Cpu.Reachable.after (.startAt _ (.powerOn _)) _
  have hstop : c.state.stopped = true := by decide +kernel
  have hthreshold : max 1 c.config.resetHoldEdges.toNat ≤ 2 := by decide +kernel
  have hlow : ∀ k < 2, (w k).reset = true := by decide
  have hfree : ∀ k < 7, w (2 + k) = { Inputs.quiet with irq := (w (2 + k)).irq } := by decide
  have hsingle : m.memories = [rom] := rfl
  obtain ⟨-, -, -, hstate⟩ := reset_wipes_history hreach hsingle hl hthreshold hlow hfree
  obtain ⟨rom', hmem, -, hkeep⟩ := memories_follow_single hsingle w 9
  rw [hkeep hrom] at hmem
  have he := peek_of_whole hmem (Memory.contains_of_length hl)
  refine ⟨hstop, hmem, hstate.trans ?_, rfl⟩
  have hlo : (m.follow w (2 + 7)).peek 0xFFFC = 0 := (he _).trans (hpeek _)
  have hhi : (m.follow w (2 + 7)).peek 0xFFFD = 0x02 := (he _).trans (hpeek _)
  rw [hlo, hhi]
  rfl

end Computer

end Cmos6502
