import Cmos6502.Mode.Format
import Cmos6502.Proofs.Microcode

namespace Cmos6502

namespace Memory

variable (ram : Memory)

def word (a : Word) : Word := .ofBytes (ram.peek a) (ram.peek (a + 1))

/-- The pointer at an address of page zero, which it does not leave. -/
def pointer (z : Byte) : Word := .ofBytes (ram.peek z.toWord) (ram.peek (Byte.toWord (z + 1)))

end Memory

def Registers.past (r : Registers) (n : Nat) : Registers := { r with pc := r.pc + .ofNat 16 n }

theorem Registers.past_past (r : Registers) (m n : Nat) : (r.past m).past n = r.past (m + n) := by
  rw [past, past, past, BitVec.ofNat_add, BitVec.add_assoc]

def Form.effective (form : Form) (a : Word) (r : Registers) (ram : Memory) : Word :=
  let b := ram.peek a
  match form with
  | zeroPage => b.toWord
  | zeroPageIndexed i => Byte.toWord (b + i.value r)
  | absolute => ram.word a
  | absoluteIndexed i => ram.word a + (i.value r).toWord
  | zeroPageIndirect => ram.pointer b
  | indexedIndirect => ram.pointer (b + r.x)
  | indirectIndexed => ram.pointer b + r.y.toWord

/-- The modes whose instructions run on to the one that follows them in memory. -/
inductive Mode.Straight : Mode → Prop
  | implied : Straight .implied
  | accumulator : Straight .accumulator
  | immediate : Straight .immediate
  | push : Straight .push
  | pull : Straight .pull
  | memory (form : Form) (use : Use) : Straight (.memory form use)

/-- What an instruction of a straight mode makes of the registers and the memory,
all in one step. -/
def Instruction.step (i : Instruction) (r : Registers) (ram : Memory) : Registers × Memory :=
  let next := r.past i.mode.length
  match i.mode with
  | .implied => (i.operation.perform next, ram)
  | .accumulator =>
    let (v, p) := i.operation.transform next r.a
    ({ next with a := v, p := p }, ram)
  | .immediate => (i.operation.consume next (ram.peek (r.pc + 1)), ram)
  | .push => ({ next with sp := r.sp - 1 }, ram.poke r.stackTop (i.operation.produce r))
  | .pull => (i.operation.consume { next with sp := r.sp + 1 } (ram.peek r.stackNext), ram)
  | .memory form use =>
    let a := form.effective (r.pc + 1) r ram
    match use with
    | .read => (i.operation.consume next (ram.peek a), ram)
    | .write => (next, ram.poke a (i.operation.produce r))
    | .modify =>
      let (v, p) := i.operation.transform next (ram.peek a)
      ({ next with p := p }, ram.poke a v)
  | _ => (r, ram)

theorem Byte.low_toWord (b : Byte) : Word.low b.toWord = b := by
  ext i hi
  simp [Word.low, Byte.toWord]

namespace MicroOp

variable (s : State) (ram : Memory)

theorem actAll_pageFixup (p : State × Memory) :
    actAll [.pageFixup] p = ({ p.1 with latches.carry := false }, p.2) := by
  rw [actAll_cons, actAll_nil]
  split
  · next hp =>
    have hc : p.1.latches.carry = false := by simpa [passedOver] using hp
    rw [← hc]
  · rfl

theorem actAll_addressing (form : Form) :
    ∃ l : Latches, l.address = form.effective s.regs.pc s.regs ram ∧
      actAll form.addressing (s, ram) =
        ({ s with regs := s.regs.past form.operandSize, latches := l }, ram) := by
  -- the cycles compute, up to the bytes read back from the latch and the fixup
  have hword : s.regs.past 2 = (s.regs.past 1).past 1 := (s.regs.past_past 1 1).symm
  have hpointer (b : Byte) : Word.ofBytes (ram.peek (Byte.toWord (Word.low b.toWord)))
      (ram.peek (Byte.toWord (Word.low b.toWord + 1))) = ram.pointer b := by
    rw [Byte.low_toWord, Memory.pointer]
  cases form with
  | zeroPage => exact ⟨_, rfl, rfl⟩
  | zeroPageIndexed i =>
    refine ⟨_, ?_, rfl⟩
    cases i <;> exact congrArg (fun b => Byte.toWord (b + _)) (Byte.low_toWord _)
  | absolute =>
    rw [Form.operandSize, hword]
    exact ⟨_, rfl, rfl⟩
  | absoluteIndexed i =>
    have hops : (Form.absoluteIndexed i).addressing =
        [.operandLow, .operandHighIndexed i] ++ [.pageFixup] := rfl
    rw [Form.operandSize, hword, hops, actAll_append, actAll_pageFixup]
    refine ⟨_, ?_, rfl⟩
    cases i <;> rfl
  | zeroPageIndirect => exact ⟨_, hpointer _, rfl⟩
  | indexedIndirect =>
    refine ⟨_, (hpointer _).trans ?_, rfl⟩
    exact congrArg (fun b => ram.pointer (b + _)) (Byte.low_toWord _)
  | indirectIndexed =>
    have hops : Form.indirectIndexed.addressing =
        [.operandLow, .pointerLow, .pointerHighIndexed .y] ++ [.pageFixup] := rfl
    rw [hops, actAll_append, actAll_pageFixup]
    refine ⟨_, ?_, rfl⟩
    exact congrArg (· + _) (hpointer _)

theorem actAll_microOps (i : Instruction) (r : Registers) (hm : i.mode.Straight)
    (hs : i.mode = .implied → i.operation ≠ .implied .wai ∧ i.operation ≠ .implied .stp) :
    let t : State := { s with instruction := i, regs := r.past 1 }
    ∃ l : Latches, actAll i.mode.microOps (t, ram) =
      ({ t with regs := (i.step r ram).1, latches := l }, (i.step r ram).2) := by
  obtain ⟨opcode, op, mode⟩ := i
  dsimp only at hm hs ⊢
  cases hm with
  | implied =>
    obtain ⟨hwai, hstp⟩ := hs rfl
    have hperform : op.perform (r.past 1) = (Instruction.step ⟨opcode, op, .implied⟩ r ram).1 := rfl
    refine ⟨s.latches, ?_⟩
    rw [Mode.microOps, actAll_cons, actAll_nil]
    change (State.perform _, ram) = _
    simp only [State.perform, State.operation, beq_false_of_ne hwai, beq_false_of_ne hstp,
      Bool.or_false, hperform]
    rfl
  | accumulator => exact ⟨_, rfl⟩
  | immediate =>
    simp only [Instruction.step, Mode.length, Mode.operandSize, ← r.past_past 1]
    exact ⟨_, rfl⟩
  | push => exact ⟨_, rfl⟩
  | pull => exact ⟨_, rfl⟩
  | memory form use =>
    let t : State := { s with instruction := ⟨opcode, op, .memory form use⟩, regs := r.past 1 }
    obtain ⟨l, ha, hf⟩ := actAll_addressing t ram form
    have heff : form.effective (r.pc + 1) r ram = l.address := ha.symm
    rw [Mode.microOps, actAll_append, hf]
    simp only [Instruction.step, Mode.length, Mode.operandSize, ← r.past_past 1, heff]
    cases use with
    | read => exact ⟨_, rfl⟩
    | write => exact ⟨_, rfl⟩
    | modify => exact ⟨_, rfl⟩

end MicroOp

theorem Instruction.runs_of_implied (policy : Policy) (opcode : Byte) :
    (decode policy opcode).mode = .implied →
      (decode policy opcode).operation ≠ .implied .wai ∧
        (decode policy opcode).operation ≠ .implied .stp := by
  revert opcode
  cases policy <;> decide

namespace Computer

/-- A started instruction of a straight mode, run over a full memory with nothing
asked for until its sequence ends, leaves what its one step makes of the
registers and the memory, and nothing else behind. -/
theorem instruction_refines_step (c : Cpu) (r : Registers) {ram : Memory} (hf : ram.Full)
    {bus : Bus} (hq : bus.inputs = .quiet) (edges : Edges) {limit : Nat}
    (hm : (Instruction.decode c.config.policy (ram.peek r.pc)).mode.Straight)
    (hl : (Instruction.decode c.config.policy (ram.peek r.pc)).mode.cycles ≤ limit) :
    let i := Instruction.decode c.config.policy (ram.peek r.pc)
    let m : Computer := ⟨(c.startAt r, [ram]), bus, edges⟩
    let e := (m.instruction limit).computer
    e.memories = [(i.step r ram).2] ∧
    e.cpu.inFlight = none ∧
    e.cpu.state =
      { regs := (i.step r ram).1
        instruction := i
        sequence := if c.state.requests.nmi then .nmi else .instruction
        step := 0
        latches := .clear
        requests := .none
        resetHold := 0
        paused := false
        stopped := false } := by
  intro i m e
  obtain ⟨hstate, hfly, hmem⟩ := instruction_startAt c r hf hq edges hl
  let s := (c.state.startAt r).executed c.config.policy .fetchOpcode (ram.peek r.pc)
  obtain ⟨l, hp⟩ := MicroOp.actAll_microOps s ram i r hm (Instruction.runs_of_implied _ _)
  have hi : s.instruction = i := rfl
  have hs : { s with instruction := i, regs := r.past 1 } = s := rfl
  rw [hs] at hp
  rw [hi, hp] at hstate hmem
  exact ⟨hmem, hfly, hstate⟩

theorem instruction_refines_step_increment :
    let code := ((Memory.blank.poke 0x0200 0xFE).poke 0x0201 0xFF).poke 0x0202 0x02
    let ram := code.poke 0x0300 0x7F
    let r : Registers := { Registers.powerOn with x := 1, pc := 0x0200 }
    let m : Computer := ⟨((Cpu.powerOn .standard).startAt r, [ram]), .quiet, ⟨0⟩⟩
    let e := (m.instruction 8).computer
    Memory.ram 0 0x10000 = .ok Memory.blank ∧
      e.memories = [ram.poke 0x0300 0x80] ∧
      e.cpu.state.regs = { r with pc := 0x0203, p.negative := true, p.zero := false } := by
  intro code ram r m e
  have h0 := Memory.full_blank
  have h1 := h0.poke 0x0200 0xFE
  have h2 := h1.poke 0x0201 0xFF
  have h3 := h2.poke 0x0202 0x02
  have hf : ram.Full := h3.poke 0x0300 0x7F
  have hpeek (a : Word) : ram.peek a = if a = 0x0300 then 0x7F else if a = 0x0202 then 0x02 else
      if a = 0x0201 then 0xFF else if a = 0x0200 then 0xFE else 0 := by
    rw [h3.peek_poke, h2.peek_poke, h1.peek_poke, h0.peek_poke, Memory.peek_blank]
  clear_value ram
  have hop : ram.peek r.pc = 0xFE := hpeek _
  have hd : Instruction.decode .sized (ram.peek r.pc) =
      ⟨0xFE, .modify .inc, .memory (.absoluteIndexed .x) .modify⟩ := by
    rw [hop]
    decide
  have ha : (Form.absoluteIndexed .x).effective (r.pc + 1) r ram = 0x0300 := by
    rw [Form.effective, Memory.word, hpeek, hpeek]
    decide
  have hstep : (Instruction.decode .sized (ram.peek r.pc)).step r ram =
      ({ r with pc := 0x0203, p.negative := true, p.zero := false }, ram.poke 0x0300 0x80) := by
    have hv : ram.peek 0x0300 = 0x7F := hpeek _
    rw [hd]
    simp only [Instruction.step, ha, hv]
    rfl
  have hm : (Instruction.decode .sized (ram.peek r.pc)).mode.Straight := by
    rw [hd]
    exact .memory _ _
  have hl : (Instruction.decode .sized (ram.peek r.pc)).mode.cycles ≤ 8 := by
    rw [hd]
    decide
  have hq : Bus.quiet.inputs = .quiet := rfl
  obtain ⟨hmem, -, hstate⟩ :=
    instruction_refines_step (Cpu.powerOn .standard) r hf hq ⟨0⟩ hm hl
  have hpolicy : (Cpu.powerOn .standard).config.policy = .sized := rfl
  rw [hpolicy, hstep] at hmem hstate
  exact ⟨Memory.ram_eq_blank, hmem, congrArg State.regs hstate⟩

end Computer

end Cmos6502
