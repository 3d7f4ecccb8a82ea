import Cmos6502.Proofs.ControlFlow
import Cmos6502.Proofs.InterruptReturn

namespace Cmos6502

namespace Memory

open Registers

def pushReturn (ram : Memory) (sp : Byte) (back : Word) : Memory :=
  (ram.poke (inStack sp) back.high).poke (inStack (sp - 1)) back.low

structure Called (old new : Memory) (sp : Byte) (back : Word) : Prop where
  high : new.peek (inStack sp) = back.high
  low : new.peek (inStack (sp - 1)) = back.low
  elsewhere : ∀ a, a ≠ inStack sp → a ≠ inStack (sp - 1) → new.peek a = old.peek a

variable {ram : Memory}

theorem Full.pushReturn (h : ram.Full) (sp : Byte) (back : Word) : (ram.pushReturn sp back).Full :=
  (h.poke _ _).poke _ _

theorem Full.called_pushReturn (h : ram.Full) (sp : Byte) (back : Word) :
    ram.Called (ram.pushReturn sp back) sp back := by
  have hne : inStack sp ≠ inStack (sp - 1) := by
    intro he
    have := inStack_inj he
    bv_omega
  have hpeek (a : Word) : (ram.pushReturn sp back).peek a =
      if a = inStack (sp - 1) then back.low else if a = inStack sp then back.high
      else ram.peek a := by
    rw [Memory.pushReturn, (h.poke _ _).peek_poke, h.peek_poke]
  constructor
  · rw [hpeek, if_neg hne, if_pos rfl]
  · rw [hpeek, if_pos rfl]
  · intro a h0 h1
    rw [hpeek, if_neg h1, if_neg h0]

end Memory

namespace MicroOp

variable (s : State) (ram : Memory)

/-- The pointer is a word like any other: its second byte may be in the next page. -/
theorem actAll_jumpIndirect :
    ∃ l : Latches, actAll Mode.jumpIndirect.microOps (s, ram) =
      ({ s with regs.pc := ram.word (ram.word s.regs.pc), latches := l }, ram) :=
  ⟨_, rfl⟩

theorem actAll_jumpIndexedIndirect :
    ∃ l : Latches, actAll Mode.jumpIndexedIndirect.microOps (s, ram) =
      ({ s with
          regs.pc := ram.word (ram.word s.regs.pc + s.regs.x.toWord)
          latches := l }, ram) :=
  ⟨_, rfl⟩

theorem actAll_rts :
    ∃ l : Latches, actAll Mode.rts.microOps (s, ram) =
      ({ s with
          regs.sp := s.regs.sp + 1 + 1
          regs.pc := .ofBytes (ram.peek (Registers.inStack (s.regs.sp + 1)))
            (ram.peek (Registers.inStack (s.regs.sp + 1 + 1))) + 1
          latches := l }, ram) :=
  ⟨_, rfl⟩

end MicroOp

theorem State.concluded_eq_ready {s : State} (h : s.suspended = false) (nmi : Bool) :
    s.concluded nmi = (State.ready s.regs s.instruction).concluded nmi := by
  obtain ⟨hstop, hpause⟩ := Bool.or_eq_false_iff.1 h
  simp only [concluded, ready, hstop, hpause]

namespace Computer

structure Fetches (m : Computer) (r : Registers) (ram : Memory) : Prop where
  reachable : m.cpu.Reachable
  running : m.cpu.state.suspended = false
  step : m.cpu.state.step = 0
  sequence : m.cpu.state.sequence = .instruction
  regs : m.cpu.state.regs = r
  memories : m.memories = [ram]
  full : ram.Full

/-- After `n` edges with nothing asked for a sequence has ended with these registers and
this memory. Only a non-maskable interrupt that was pending before can come next instead
of an instruction. -/
def Leaves (m : Computer) (n : Nat) (r : Registers) (ram : Memory) : Prop :=
  let e := m.follow (fun _ => .quiet) n
  (∃ i, e.cpu.state = (State.ready r i).concluded m.cpu.state.requests.nmi) ∧
    e.memories = [ram]

variable {m : Computer} {r : Registers} {ram : Memory}

theorem Leaves.fetches {n : Nat} {r' : Registers} {ram' : Memory} (h : m.Leaves n r' ram')
    (hm : m.cpu.Reachable) (hnmi : m.cpu.state.requests.nmi = false) (hf : ram'.Full) :
    (m.follow (fun _ => .quiet) n).Fetches r' ram' ∧
      (m.follow (fun _ => .quiet) n).cpu.state.requests.nmi = false := by
  obtain ⟨⟨i, hstate⟩, hmem⟩ := h
  rw [hnmi] at hstate
  constructor
  · exact {
      reachable := reachable_follow hm _ n
      running := by rw [hstate]; rfl
      step := by rw [hstate]; rfl
      sequence := by rw [hstate]; rfl
      regs := by rw [hstate]; rfl
      memories := hmem
      full := hf }
  · rw [hstate]
    rfl

theorem Leaves.add {a n : Nat} {r' : Registers} {ram' : Memory}
    (hnmi : m.cpu.state.requests.nmi = false)
    (hnmi' : (m.follow (fun _ => .quiet) a).cpu.state.requests.nmi = false)
    (h : (m.follow (fun _ => .quiet) a).Leaves n r' ram') : m.Leaves (a + n) r' ram' := by
  have hfollow := follow_add m (fun _ => .quiet) a n
  rw [Leaves, hnmi] at *
  rw [hnmi'] at h
  rw [hfollow]
  exact h

theorem Fetches.leaves (h : m.Fetches r ram) {opcode : Byte} {op : Operation} {mode : Mode}
    (hop : ram.peek r.pc = opcode) (hbound : Opcode.bound opcode = some (op, mode))
    (hops : ∀ op ∈ mode.microOps, op.optional = false) {r' : Registers} {ram' : Memory}
    (hact : ∀ s : State, s.regs = r.past 1 → ∃ l : Latches,
      MicroOp.actAll mode.microOps (s, ram) = ({ s with regs := r', latches := l }, ram')) :
    m.Leaves mode.cycles r' ram' := by
  have hbegun : m.begun ram = _ := begun_of_instruction h.step h.sequence
  rw [h.regs, hop] at hbegun
  have hregs : (m.begun ram).regs = r.past 1 := by
    rw [hbegun, ← h.regs]
    rfl
  have hrun : (m.begun ram).suspended = false := by
    rw [hbegun]
    exact h.running
  have hseq : (m.begun ram).sequence = .instruction := by
    rw [hbegun]
    exact h.sequence
  have hmode : (m.begun ram).mode.microOps = mode.microOps := by
    have hdecode := Instruction.decode_of_bound hbound m.cpu.config.policy
    rw [State.mode, hseq, hbegun]
    exact congrArg (fun i => i.mode.microOps) hdecode
  obtain ⟨hstate, hmem⟩ := follow_quiet h.reachable h.running h.step h.memories h.full hmode hops
  obtain ⟨l, hl⟩ := hact (m.begun ram) hregs
  rw [hl] at hstate hmem
  let t : State := { m.begun ram with regs := r', latches := l }
  have ht : t.suspended = false := hrun
  exact ⟨⟨_, hstate.trans (State.concluded_eq_ready ht _)⟩, hmem⟩

section Jumps

variable (h : m.Fetches r ram)
include h

theorem Fetches.jumpAbsolute (hop : ram.peek r.pc = 0x4C) :
    m.Leaves 3 { r with pc := ram.word (r.pc + 1) } ram := by
  apply h.leaves hop rfl (by decide)
  intro s hs
  obtain ⟨l, hl⟩ := MicroOp.actAll_jumpAbsolute s ram
  rw [hl, hs]
  exact ⟨l, rfl⟩

theorem Fetches.jumpIndirect (hop : ram.peek r.pc = 0x6C) :
    m.Leaves 6 { r with pc := ram.word (ram.word (r.pc + 1)) } ram := by
  apply h.leaves hop rfl (by decide)
  intro s hs
  obtain ⟨l, hl⟩ := MicroOp.actAll_jumpIndirect s ram
  rw [hl, hs]
  exact ⟨l, rfl⟩

theorem Fetches.jumpIndexedIndirect (hop : ram.peek r.pc = 0x7C) :
    m.Leaves 6 { r with pc := ram.word (ram.word (r.pc + 1) + r.x.toWord) } ram := by
  apply h.leaves hop rfl (by decide)
  intro s hs
  obtain ⟨l, hl⟩ := MicroOp.actAll_jumpIndexedIndirect s ram
  rw [hl, hs]
  exact ⟨l, rfl⟩

theorem Fetches.call (hop : ram.peek r.pc = 0x20) :
    let back := r.pc + 2
    let pushed := ram.pushReturn r.sp back
    m.Leaves 6
      { r with sp := r.sp - 2, pc := .ofBytes (ram.peek (r.pc + 1)) (pushed.peek back) } pushed := by
  intro back pushed
  -- the high byte is read only after the pushes, which may have gone over it
  have hback : back = r.pc + 1 + 1 := r.pc.add_two
  have hsp : r.sp - 2 = r.sp - 1 - 1 := by bv_omega
  have hpushed : pushed = (ram.poke (Registers.inStack r.sp) (r.pc + 1 + 1).high).poke
      (Registers.inStack (r.sp - 1)) (r.pc + 1 + 1).low := by
    rw [← hback]
    rfl
  rw [hpushed, hback, hsp]
  apply h.leaves hop rfl (by decide)
  intro s hs
  obtain ⟨l, hl⟩ := MicroOp.actAll_jsr s ram
  have hsp' : s.regs.sp = r.sp := by rw [hs, Registers.past]
  have hpc : s.regs.pc = r.pc + 1 := by rw [hs]; rfl
  rw [hl, hsp', hpc, hs]
  exact ⟨l, rfl⟩

theorem Fetches.comeBack (hop : ram.peek r.pc = 0x60) (sp : Byte) (hsp : r.sp = sp - 2) :
    m.Leaves 6 { r with
      sp := sp
      pc := .ofBytes (ram.peek (Registers.inStack (sp - 1))) (ram.peek (Registers.inStack sp)) + 1
      } ram := by
  apply h.leaves hop rfl (by decide)
  intro s hs
  obtain ⟨l, hl⟩ := MicroOp.actAll_rts s ram
  have hsp' : s.regs.sp = r.sp := by rw [hs, Registers.past]
  have hlow : r.sp + 1 = sp - 1 := by bv_omega
  have hhigh : sp - 1 + 1 = sp := by bv_omega
  rw [hl, hsp', hlow, hhigh, hs]
  exact ⟨l, rfl⟩

theorem Fetches.call_return (hnmi : m.cpu.state.requests.nmi = false)
    (hop : ram.peek r.pc = 0x20) :
    let pushed := ram.pushReturn r.sp (r.pc + 2)
    let target := Word.ofBytes (ram.peek (r.pc + 1)) (pushed.peek (r.pc + 2))
    pushed.peek target = 0x60 → m.Leaves 12 { r with pc := r.pc + 3 } pushed := by
  intro pushed target hret
  have hcalled : ram.Called pushed r.sp (r.pc + 2) := h.full.called_pushReturn r.sp (r.pc + 2)
  obtain ⟨hnext, hnmi'⟩ := (h.call hop).fetches h.reachable hnmi (h.full.pushReturn _ _)
  have hback := hnext.comeBack hret r.sp rfl
  have hpc : r.pc + 2 + 1 = r.pc + 3 := by bv_omega
  rw [hcalled.high, hcalled.low, Word.ofBytes_low_high, hpc] at hback
  exact Leaves.add (a := 6) (n := 6) hnmi hnmi' hback

end Jumps

theorem fetches_startAt {c : Cpu} (hc : c.Reachable) (r : Registers) (hf : ram.Full) (bus : Bus)
    (edges : Edges) : Fetches ⟨(c.startAt r, [ram]), bus, edges⟩ r ram where
  reachable := .startAt r hc
  running := rfl
  step := rfl
  sequence := rfl
  regs := rfl
  memories := rfl
  full := hf

/-- A jump through a pointer goes where the two bytes say that it points to, in whichever
pages they lie. A call leaves the address of its own last byte on the stack and goes to its
operand, of which it reads the second byte only then; a return goes on after the address
that it pulls, so that together they lead past the call. No register but the program
counter and the stack pointer has changed, and no memory but the two bytes pushed. -/
theorem jumps_and_calls (h : m.Fetches r ram) :
    let opcode := ram.peek r.pc
    let operand := ram.word (r.pc + 1)
    let back := r.pc + 2
    let pushed := ram.pushReturn r.sp back
    let target := Word.ofBytes (ram.peek (r.pc + 1)) (pushed.peek back)
    let pulled := Word.ofBytes (ram.peek (Registers.inStack (r.sp + 1)))
      (ram.peek (Registers.inStack (r.sp + 2)))
    (opcode = 0x4C → m.Leaves 3 { r with pc := operand } ram) ∧
    (opcode = 0x6C → m.Leaves 6 { r with pc := ram.word operand } ram) ∧
    (opcode = 0x7C → m.Leaves 6 { r with pc := ram.word (operand + r.x.toWord) } ram) ∧
    (opcode = 0x60 → m.Leaves 6 { r with sp := r.sp + 2, pc := pulled + 1 } ram) ∧
    (opcode = 0x20 →
      m.Leaves 6 { r with sp := r.sp - 2, pc := target } pushed ∧ ram.Called pushed r.sp back ∧
      (pushed.peek target = 0x60 → m.cpu.state.requests.nmi = false →
        m.Leaves 12 { r with pc := r.pc + 3 } pushed)) := by
  intro opcode operand back pushed target pulled
  refine ⟨h.jumpAbsolute, h.jumpIndirect, h.jumpIndexedIndirect, ?back, ?call⟩
  case back =>
    intro hop
    have hback := h.comeBack hop (r.sp + 2) (by bv_omega)
    have hlow : r.sp + 2 - 1 = r.sp + 1 := by bv_omega
    rwa [hlow] at hback
  case call =>
    intro hop
    refine ⟨h.call hop, h.full.called_pushReturn r.sp back, fun hret hnmi => ?_⟩
    exact h.call_return hnmi hop hret

/-- A call at the top of the stack page pushes over its own operand, of which the first
byte has been read by then, and so leads to a return at `$0140`. -/
theorem jumps_and_calls_overwritten :
    let ram := ((Memory.blank.poke 0x01FD 0x20).poke 0x01FE 0x40).poke 0x0140 0x60
    let r : Registers := { Registers.powerOn with a := 0x5A, sp := 0xFF, pc := 0x01FD }
    let m : Computer := ⟨((Cpu.powerOn .standard).startAt r, [ram]), .quiet, ⟨0⟩⟩
    let called := m.follow (fun _ => .quiet) 6
    let returned := m.follow (fun _ => .quiet) 12
    called.cpu.state.regs = { r with sp := 0xFD, pc := 0x0140 } ∧
      returned.cpu.state.regs = { r with pc := 0x0200 } ∧
      ∃ ram', returned.memories = [ram'] ∧ ram'.peek 0x01FE = 0xFF ∧ ram'.peek 0x01FF = 0x01 := by
  intro ram r m called returned
  have h0 := Memory.full_blank
  have h1 := h0.poke 0x01FD 0x20
  have h2 := h1.poke 0x01FE 0x40
  have hf : ram.Full := h2.poke 0x0140 0x60
  have hpeek (a : Word) : ram.peek a = if a = 0x0140 then 0x60 else if a = 0x01FE then 0x40 else
      if a = 0x01FD then 0x20 else 0 := by
    rw [h2.peek_poke, h1.peek_poke, h0.peek_poke, Memory.peek_blank]
  clear_value ram
  have hm : m.Fetches r ram := fetches_startAt (.powerOn _) r hf _ _
  have hop : ram.peek r.pc = 0x20 := hpeek _
  have hsp : r.sp = 0xFF := rfl
  have hback : r.pc + 2 = 0x01FF := rfl
  have hdown : (0xFF : Byte) - 2 = 0xFD := by decide
  have hnext : r.pc + 3 = 0x0200 := rfl
  obtain ⟨-, -, -, -, hcall⟩ := jumps_and_calls hm
  obtain ⟨⟨⟨i, hcalled⟩, -⟩, hframe, hreturn⟩ := hcall hop
  rw [hsp, hback] at hcalled hframe hreturn
  have hhigh : (ram.pushReturn 0xFF 0x01FF).peek 0x01FF = 0x01 := hframe.high
  have hlow : (ram.pushReturn 0xFF 0x01FF).peek 0x01FE = 0xFF := hframe.low
  have hoperand : ram.peek (r.pc + 1) = 0x40 := hpeek _
  have htarget : Word.ofBytes 0x40 0x01 = 0x0140 := by decide
  have hret : (ram.pushReturn 0xFF 0x01FF).peek 0x0140 = 0x60 := by
    rw [hframe.elsewhere 0x0140 (by decide) (by decide), hpeek]
    decide
  rw [hoperand, hhigh, htarget] at hcalled hreturn
  rw [hdown] at hcalled
  rw [hnext] at hreturn
  obtain ⟨⟨j, hreturned⟩, hmem⟩ := hreturn hret rfl
  refine ⟨?_, ?_, _, hmem, hlow, hhigh⟩
  · calc called.cpu.state.regs = _ := congrArg State.regs hcalled
      _ = { r with sp := 0xFD, pc := 0x0140 } := rfl
  · calc returned.cpu.state.regs = _ := congrArg State.regs hreturned
      _ = { r with pc := 0x0200 } := rfl

end Computer

end Cmos6502
