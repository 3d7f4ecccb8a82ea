import Cmos6502.Proofs.NmiLatch
import Cmos6502.Proofs.Semantics
import Cmos6502.Proofs.Steady

namespace Cmos6502

namespace Memory

open Registers

def pushFrame (ram : Memory) (sp : Byte) (pc : Word) (status : Byte) : Memory :=
  ((ram.poke (inStack sp) pc.high).poke (inStack (sp - 1)) pc.low).poke (inStack (sp - 2)) status

/-- How a memory with a frame on the stack differs from the one before. -/
structure Framed (old new : Memory) (sp : Byte) (pc : Word) (status : Byte) : Prop where
  high : new.peek (inStack sp) = pc.high
  low : new.peek (inStack (sp - 1)) = pc.low
  status : new.peek (inStack (sp - 2)) = status
  elsewhere : ∀ a, a ≠ inStack sp → a ≠ inStack (sp - 1) → a ≠ inStack (sp - 2) →
    new.peek a = old.peek a

variable {ram : Memory}

theorem Full.pushFrame (h : ram.Full) (sp : Byte) (pc : Word) (status : Byte) :
    (ram.pushFrame sp pc status).Full :=
  ((h.poke _ _).poke _ _).poke _ _

/-- The three bytes do not get into each other's way, wherever the stack pointer
wraps. -/
theorem Full.framed_pushFrame (h : ram.Full) (sp : Byte) (pc : Word) (status : Byte) :
    ram.Framed (ram.pushFrame sp pc status) sp pc status := by
  have hne {s t : Byte} (h : s ≠ t) : inStack s ≠ inStack t := fun he => h (inStack_inj he)
  have h01 : inStack sp ≠ inStack (sp - 1) := hne (by bv_omega)
  have h02 : inStack sp ≠ inStack (sp - 2) := hne (by bv_omega)
  have h12 : inStack (sp - 1) ≠ inStack (sp - 2) := hne (by bv_omega)
  have hpeek (a : Word) : (ram.pushFrame sp pc status).peek a =
      if a = inStack (sp - 2) then status else if a = inStack (sp - 1) then pc.low else
        if a = inStack sp then pc.high else ram.peek a := by
    rw [Memory.pushFrame, ((h.poke _ _).poke _ _).peek_poke, (h.poke _ _).peek_poke, h.peek_poke]
  constructor
  · rw [hpeek, if_neg h02, if_neg h01, if_pos rfl]
  · rw [hpeek, if_neg h12, if_pos rfl]
  · rw [hpeek, if_pos rfl]
  · intro a h0 h1 h2
    rw [hpeek, if_neg h2, if_neg h1, if_neg h0]

theorem Framed.word {new : Memory} {sp : Byte} {pc : Word} {status : Byte}
    (h : ram.Framed new sp pc status) {v : Word} (hv : v.high ≠ 1) (hv' : (v + 1).high ≠ 1) :
    new.word v = ram.word v := by
  have outside {a : Word} (ha : a.high ≠ 1) : new.peek a = ram.peek a := by
    have hne (s : Byte) : a ≠ inStack s := by
      rintro rfl
      exact ha (high_inStack s)
    exact h.elsewhere a (hne _) (hne _) (hne _)
  rw [Memory.word, Memory.word, outside hv, outside hv']

end Memory

namespace MicroOp

variable (s : State) (ram : Memory)

theorem actAll_pushing (brk : Bool) :
    actAll (Mode.pushing brk) (s, ram) =
      ({ s with regs.sp := s.regs.sp - 3 },
        ram.pushFrame s.regs.sp s.regs.pc
          (if brk then s.regs.p.toByte else s.regs.p.toInterruptByte)) := by
  have h2 : s.regs.sp - 2 = s.regs.sp - 1 - 1 := by bv_omega
  have h3 : s.regs.sp - 3 = s.regs.sp - 1 - 1 - 1 := by bv_omega
  rw [Memory.pushFrame, h2, h3]
  rfl

theorem actAll_rti {sp : Byte} (h : s.regs.sp = sp - 3) :
    ∃ l : Latches, actAll Mode.rti.microOps (s, ram) =
      ({ s with
          regs := { s.regs with
            sp := sp
            pc := .ofBytes (ram.peek (Registers.inStack (sp - 1))) (ram.peek (Registers.inStack sp))
            p := .ofByte (ram.peek (Registers.inStack (sp - 2))) }
          latches := l }, ram) := by
  have h2 : sp - 2 = s.regs.sp + 1 := by bv_omega
  have h1 : sp - 1 = s.regs.sp + 1 + 1 := by bv_omega
  have h0 : sp = s.regs.sp + 1 + 1 + 1 := by bv_omega
  have hpulls : actAll Mode.rti.microOps (s, ram) =
      pullJump.act (pullLow.act (pullStatus.act (s, ram))) := rfl
  have hstatus : pullStatus.act (s, ram) =
      ({ s.raiseStack with regs.p := .ofByte (ram.peek s.regs.stackNext) }, ram) := rfl
  have hlow (t : State) : pullLow.act (t, ram) =
      (t.raiseStack.withAddress (Byte.toWord (ram.peek t.regs.stackNext)), ram) := rfl
  have hjump (t : State) : pullJump.act (t, ram) =
      (t.raiseStack.withPc (t.latches.address.orHigh (ram.peek t.regs.stackNext)), ram) := rfl
  rw [h2, h1, h0, hpulls, hstatus, hlow, hjump]
  exact ⟨_, rfl⟩

end MicroOp

def State.ready (r : Registers) (i : Instruction) : State where
  regs := r
  instruction := i
  sequence := .instruction
  step := 0
  latches := .clear
  requests := .none
  resetHold := 0
  paused := false
  stopped := false

theorem State.concluded_of_running {s : State} (h : s.suspended = false) :
    s.concluded false = .ready s.regs s.instruction := by
  obtain ⟨hstop, hpause⟩ := Bool.or_eq_false_iff.1 h
  simp only [concluded, ready, hstop, hpause]
  rfl

/-- What begins with the next cycle goes through a vector: with which one, where
it is to return to and the status it pushes, in which only a break sets the break
bit. -/
inductive Entry (s : State) (ram : Memory) : Word → Word → Byte → Prop
  | irq : s.sequence = .irq → Entry s ram irqVector s.regs.pc s.regs.p.toInterruptByte
  | nmi : s.sequence = .nmi → Entry s ram nmiVector s.regs.pc s.regs.p.toInterruptByte
  | brk : s.sequence = .instruction → s.paused = false → ram.peek s.regs.pc = 0x00 →
      Entry s ram irqVector (s.regs.pc + 2) s.regs.p.toByte

namespace Entry

variable {s : State} {ram : Memory} {vector back : Word} {status : Byte}

theorem running (h : Entry s ram vector back status) (hw : s.WellFormed)
    (hs : s.stopped = false) : s.suspended = false := by
  refine Bool.or_eq_false_iff.2 ⟨hs, ?_⟩
  cases h with
  | brk _ hp _ => exact hp
  | irq hq | nmi hq =>
    refine Bool.eq_false_iff.2 fun hp => ?_
    have h := hq.symm.trans (hw.waiting hp).2.1
    cases h

theorem ofByte_status (h : Entry s ram vector back status) : Flags.ofByte status = s.regs.p := by
  cases h with
  | brk => exact Flags.ofByte_toByte s.regs.p
  | irq | nmi => exact Flags.ofByte_toInterruptByte s.regs.p

theorem word_vector (h : Entry s ram vector back status) {new : Memory} {sp v : Byte} {pc : Word}
    (hf : ram.Framed new sp pc v) : new.word vector = ram.word vector := by
  cases h <;> exact hf.word (by decide) (by decide)

end Entry

namespace Computer

variable {m : Computer} {ram : Memory} {vector back : Word} {status : Byte}

theorem microOps_of_entry (he : Entry m.cpu.state ram vector back status)
    (h0 : m.cpu.state.step = 0) :
    ∃ first brk t,
      (m.begun ram).mode.microOps = first :: (Mode.pushing brk ++ Mode.vectored vector) ∧
      first.optional = false ∧ first.act (m.begun ram, ram) = (t, ram) ∧
      t.regs = { m.cpu.state.regs with pc := back } ∧
      t.suspended = m.cpu.state.suspended ∧
      status = if brk then t.regs.p.toByte else t.regs.p.toInterruptByte := by
  have interrupted (hq : m.cpu.state.sequence ≠ .instruction) :
      MicroOp.dummyProgram.act (m.begun ram, ram) = (m.cpu.state, ram) := by
    rw [begun_of_entry h0 hq]
    rfl
  -- the ways in differ only in what comes before the pushes
  cases he with
  | irq hq | nmi hq =>
    have hne : m.cpu.state.sequence ≠ .instruction := by rw [hq]; decide
    refine ⟨.dummyProgram, false, m.cpu.state, ?_, rfl, interrupted hne, rfl, rfl, rfl⟩
    rw [begun_of_entry h0 hne, State.mode, hq]
    rfl
  | brk hq hp hop =>
    have hbegun : m.begun ram = _ := begun_of_instruction h0 hq
    have hpc : m.cpu.state.regs.pc + 2 = m.cpu.state.regs.pc + 1 + 1 := by bv_omega
    have hseq : (m.begun ram).sequence = .instruction := by
      rw [hbegun]
      exact hq
    have hmode : (m.begun ram).mode = .brk := by
      rw [State.mode, hseq, hbegun, hop]
      rfl
    rw [hmode, hbegun, hpc]
    exact ⟨.breakSignature, true, _, rfl, rfl, rfl, rfl, rfl, rfl⟩

theorem follow_entry (hm : m.cpu.Reachable) (h0 : m.cpu.state.step = 0)
    (hs : m.cpu.state.stopped = false) (hnmi : m.cpu.state.requests.nmi = false)
    (hmem : m.memories = [ram]) (hf : ram.Full)
    (he : Entry m.cpu.state ram vector back status) :
    let r := m.cpu.state.regs
    let pushed := ram.pushFrame r.sp back status
    let e := m.follow (fun _ => .quiet) 7
    (∃ i, e.cpu.state = .ready { r with
      sp := r.sp - 3
      pc := pushed.word vector
      p.interruptDisable := true
      p.decimal := false } i) ∧ e.memories = [pushed] := by
  intro r pushed e
  have hrun := he.running hm.wellFormed.state hs
  obtain ⟨first, brk, t, hops, hopt, hact, hregs, hsus, hstatus⟩ := microOps_of_entry he h0
  have hsteady : ∀ op ∈ first :: (Mode.pushing brk ++ Mode.vectored vector),
      op.optional = false := by
    refine List.forall_mem_cons.2 ⟨hopt, ?_⟩
    simp [Mode.pushing, Mode.vectored, MicroOp.optional]
  obtain ⟨hstate, hmems⟩ := follow_quiet hm hrun h0 hmem hf hops hsteady
  rw [hnmi] at hstate
  have hpush := MicroOp.actAll_pushing t ram brk
  rw [← hstatus, hregs] at hpush
  rw [MicroOp.actAll_cons, MicroOp.passedOver_of_not_optional hopt, if_neg Bool.false_ne_true,
    hact, MicroOp.actAll_append, hpush, MicroOp.actAll_vectored] at hstate hmems
  refine ⟨⟨t.instruction, hstate.trans ?_⟩, hmems⟩
  exact State.concluded_of_running (hsus.trans hrun)

theorem follow_return (hm : m.cpu.Reachable) {r : Registers} {i : Instruction}
    (hstate : m.cpu.state = .ready r i) (hmem : m.memories = [ram]) (hf : ram.Full)
    (hop : ram.peek r.pc = 0x40) {sp : Byte} (hsp : r.sp = sp - 3) :
    let e := m.follow (fun _ => .quiet) 6
    (∃ j, e.cpu.state = .ready { r with
      sp := sp
      pc := .ofBytes (ram.peek (Registers.inStack (sp - 1))) (ram.peek (Registers.inStack sp))
      p := .ofByte (ram.peek (Registers.inStack (sp - 2))) } j) ∧ e.memories = [ram] := by
  intro e
  let j := Instruction.decode m.cpu.config.policy 0x40
  let s : State := { State.ready (r.past 1) j with latches.data := 0x40 }
  have hzero : m.cpu.state.step = 0 := by rw [hstate]; rfl
  have hrun : m.cpu.state.suspended = false := by rw [hstate]; rfl
  have hnmi : m.cpu.state.requests.nmi = false := by rw [hstate]; rfl
  have hseq : m.cpu.state.sequence = .instruction := by rw [hstate]; rfl
  have hbegun : m.begun ram = s := by
    have hpc : ram.peek m.cpu.state.regs.pc = 0x40 := by rw [hstate]; exact hop
    rw [begun_of_instruction hzero hseq, hpc, hstate]
    rfl
  have hmode : (m.begun ram).mode.microOps = Mode.rti.microOps := by rw [hbegun]; rfl
  obtain ⟨hend, hmems⟩ := follow_quiet hm hrun hzero hmem hf hmode (by decide)
  rw [hnmi] at hend
  have hpull : s.regs.sp = sp - 3 := hsp
  obtain ⟨l, hpull⟩ := MicroOp.actAll_rti s ram hpull
  rw [hbegun, hpull] at hend hmems
  exact ⟨⟨j, hend⟩, hmems⟩

/-- A return as the first instruction of a handler undoes its entry, and leaves
nothing behind but the three bytes on the stack. -/
theorem return_undoes_entry (hm : m.cpu.Reachable) (h0 : m.cpu.state.step = 0)
    (hs : m.cpu.state.stopped = false) (hnmi : m.cpu.state.requests.nmi = false)
    (hmem : m.memories = [ram]) (hf : ram.Full)
    (he : Entry m.cpu.state ram vector back status) :
    let r := m.cpu.state.regs
    let handler := ram.word vector
    let entered := m.follow (fun _ => .quiet) 7
    let returned := m.follow (fun _ => .quiet) 13
    ∃ ram', ram.Framed ram' r.sp back status ∧ entered.memories = [ram'] ∧
      (∃ i, entered.cpu.state = .ready { r with
        sp := r.sp - 3
        pc := handler
        p.interruptDisable := true
        p.decimal := false } i) ∧
      (ram'.peek handler = 0x40 → returned.memories = [ram'] ∧
        ∃ i, returned.cpu.state = .ready { r with pc := back } i) := by
  intro r handler entered returned
  let pushed := ram.pushFrame r.sp back status
  have hframed : ram.Framed pushed r.sp back status := hf.framed_pushFrame _ _ _
  obtain ⟨⟨i, hin⟩, hmem'⟩ := follow_entry hm h0 hs hnmi hmem hf he
  rw [he.word_vector hframed] at hin
  refine ⟨pushed, hframed, hmem', ⟨i, hin⟩, fun hop => ?_⟩
  have hreach := reachable_follow hm (fun _ => .quiet) 7
  have hfull : pushed.Full := hf.pushFrame _ _ _
  obtain ⟨⟨j, hout⟩, hmem''⟩ := follow_return hreach hin hmem' hfull hop rfl
  rw [hframed.high, hframed.low, hframed.status, Word.ofBytes_low_high, he.ofByte_status] at hout
  have hrun : returned = entered.follow (fun _ => .quiet) 6 := follow_add m _ 7 6
  rw [hrun]
  exact ⟨hmem'', j, hout⟩

/-- An interrupt that pushes across the end of the stack page, and a handler at
zero that returns at once. -/
theorem return_undoes_entry_wrapped :
    let ram := Memory.blank.poke 0x0000 0x40
    let r : Registers :=
      { Registers.powerOn with sp := 0x01, pc := 0x80FE, p := .ofByte 0x08 }
    let nop : Bus := { Bus.quiet with data := 0xEA }.withInputs { Inputs.quiet with irq := true }
    let c := ((Cpu.powerOn .standard).startAt r).after [(nop, nop), (nop, nop)]
    let m : Computer := ⟨(c, [ram]), .quiet, ⟨0⟩⟩
    let returned := m.follow (fun _ => .quiet) 13
    c.state.sequence = .irq ∧ Registers.inStack (r.sp - 2) = 0x01FF ∧
      (∃ i, returned.cpu.state = .ready { r with pc := 0x80FF } i) ∧
      ∃ ram', returned.memories = [ram'] ∧ ram.Framed ram' 0x01 0x80FF 0x28 := by
  intro ram r nop c m returned
  have hf : ram.Full := Memory.full_blank.poke 0x0000 0x40
  have hpeek (a : Word) : ram.peek a = if a = 0x0000 then 0x40 else 0 := by
    rw [Memory.full_blank.peek_poke, Memory.peek_blank]
  clear_value ram
  have hc : c.Reachable := Cpu.Reachable.after (.startAt _ (.powerOn _)) _
  have hseq : c.state.sequence = .irq := by decide +kernel
  have hzero : c.state.step = 0 := by decide +kernel
  have hstop : c.state.stopped = false := by decide +kernel
  have hnmi : c.state.requests.nmi = false := by decide +kernel
  have hregs : c.state.regs = { r with pc := 0x80FF } := by decide +kernel
  clear_value c
  have hstatus : ({ r with pc := 0x80FF } : Registers).p.toInterruptByte = 0x28 := by decide
  have he : Entry c.state ram _ _ _ := .irq hseq
  rw [hregs, hstatus] at he
  obtain ⟨ram', hframed, -, -, hback⟩ :=
    return_undoes_entry (m := m) hc hzero hstop hnmi rfl hf he
  rw [show m.cpu.state.regs = _ from hregs] at hframed hback
  have hvector : ram.word irqVector = 0x0000 := by
    rw [Memory.word, hpeek, hpeek]
    decide
  have hout : ∀ s : Byte, (0x0000 : Word) ≠ Registers.inStack s := by decide
  have hhandler : ram'.peek (ram.word irqVector) = 0x40 := by
    rw [hvector, hframed.elsewhere 0x0000 (hout _) (hout _) (hout _), hpeek]
    rfl
  obtain ⟨hmem, i, hstate⟩ := hback hhandler
  exact ⟨hseq, by decide, ⟨i, hstate⟩, ram', hmem, hframed⟩

end Computer

end Cmos6502
