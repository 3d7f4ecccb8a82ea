import Cmos6502.Disassembly
import Cmos6502.Proofs.CycleCount
import Cmos6502.Proofs.Semantics

namespace Cmos6502

theorem Word.hex_inj {v w : Word} (h : v.hex = w.hex) : v = w := by
  have hbound (w : Word) : w.toNat < Nat.pow 16 4 := w.isLt
  exact BitVec.eq_of_toNat_eq (hexDigits_inj (hbound v) (hbound w) (String.ofList_injective h))

theorem Word.length_hex (w : Word) : w.hex.toList.length = 4 := by
  rw [Word.hex, String.toList_ofList, length_hexDigits]

theorem Word.add_two (w : Word) : w + 2 = w + 1 + 1 := (BitVec.add_assoc w 1 1).symm

namespace Memory

/-- The `n` bytes from an address on; past the top of the address space they go on at
zero. -/
def bytesFrom (ram : Memory) (a : Word) (n : Nat) : List Byte :=
  (List.range n).map fun k => ram.peek (a + .ofNat 16 k)

theorem byteAt_bytesFrom (ram : Memory) (a : Word) {k n : Nat} (h : k < n) :
    Disassembly.byteAt (ram.bytesFrom a n) k = ram.peek (a + .ofNat 16 k) := by
  simp [Disassembly.byteAt, bytesFrom, h]

end Memory

namespace Disassembly

/-- The last four digits of the text are those of an address. -/
def Names (d : Disassembly) (a : Word) : Prop := a.hex.toList <:+ d.text.toList

instance (d : Disassembly) (a : Word) : Decidable (d.Names a) :=
  inferInstanceAs (Decidable (_ <:+ _))

theorem Names.eq {d : Disassembly} {a b : Word} (ha : d.Names a) (hb : d.Names b) : a = b := by
  have hlen : a.hex.toList.length = b.hex.toList.length := by
    rw [Word.length_hex, Word.length_hex]
  have hab : a.hex.toList <:+ b.hex.toList := List.suffix_of_suffix_length_le ha hb hlen.le
  exact Word.hex_inj (String.toList_injective (hab.eq_of_length hlen))

variable (policy : Policy) (bytes : List Byte) (pc : Word)

theorem names_of_format {f : Format} {p : Piece} {a : Word}
    (hf : (Instruction.decode policy (byteAt bytes 0)).mode.format = f ++ [p])
    (hp : renderPiece bytes pc (Instruction.decode policy (byteAt bytes 0)) p = a.hex) :
    (ofBytes policy bytes pc).Names a := by
  have hne : (f ++ [p]).isEmpty = false := by simp
  have hjoin (l : List String) (s : String) : String.join (l ++ [s]) = String.join l ++ s := by
    simp [String.join]
  simp only [Names, ofBytes, operand, hf, hne, Bool.false_eq_true, if_false, List.map_append,
    List.map_cons, List.map_nil, hp, hjoin, String.toList_append, ← List.append_assoc]
  exact List.suffix_append _ _

theorem mnemonic_prefix :
    (Instruction.decode policy (byteAt bytes 0)).operation.mnemonic.toList <+:
      (ofBytes policy bytes pc).text.toList := by
  rw [ofBytes]
  split
  · exact List.prefix_rfl
  · rw [String.toList_append, String.toList_append, List.append_assoc]
    exact List.prefix_append _ _

section Ram

variable (ram : Memory) {n : Nat} (hn : 3 ≤ n)

include hn

theorem byteAt_zero : byteAt (ram.bytesFrom pc n) 0 = ram.peek pc := by
  rw [ram.byteAt_bytesFrom pc (by omega), BitVec.add_zero]

theorem length_bytesFrom :
    (ofBytes policy (ram.bytesFrom pc n) pc).length =
      (Instruction.decode policy (ram.peek pc)).mode.length := by
  rw [ofBytes, byteAt_zero pc ram hn]

theorem names_target
    (h : (Instruction.decode policy (ram.peek pc)).mode = .relative ∨
      (Instruction.decode policy (ram.peek pc)).mode = .zeroPageRelative) :
    let i := Instruction.decode policy (ram.peek pc)
    let offset := ram.peek (pc + if i.mode = .zeroPageRelative then 2 else 1)
    (ofBytes policy (ram.bytesFrom pc n) pc).Names
      (pc + .ofNat 16 i.mode.length + offset.displacement) := by
  intro i offset
  have hoffset : offset = byteAt (ram.bytesFrom pc n)
      (if i.mode = .zeroPageRelative then 2 else 1) := by
    simp only [offset]
    split
    · exact (ram.byteAt_bytesFrom pc (k := 2) (by omega)).symm
    · exact (ram.byteAt_bytesFrom pc (k := 1) (by omega)).symm
  rw [hoffset]
  have hshown : renderPiece (ram.bytesFrom pc n) pc i .target =
      (target (ram.bytesFrom pc n) pc i).hex := rfl
  simp only [i, ← byteAt_zero pc ram hn] at h hshown ⊢
  obtain h | h := h
  · exact names_of_format policy _ pc (f := [.text "$"]) (congrArg Mode.format h) hshown
  · exact names_of_format policy _ pc (f := [.text "$", .byte, .text ",$"])
      (congrArg Mode.format h) hshown

theorem names_word
    (h : (Instruction.decode policy (ram.peek pc)).mode = .jumpAbsolute ∨
      (Instruction.decode policy (ram.peek pc)).mode = .jsr) :
    (ofBytes policy (ram.bytesFrom pc n) pc).Names
      (.ofBytes (ram.peek (pc + 1)) (ram.peek (pc + 2))) := by
  have hlow : byteAt (ram.bytesFrom pc n) 1 = ram.peek (pc + 1) :=
    ram.byteAt_bytesFrom pc (by omega)
  have hhigh : byteAt (ram.bytesFrom pc n) 2 = ram.peek (pc + 2) :=
    ram.byteAt_bytesFrom pc (by omega)
  rw [← byteAt_zero pc ram hn] at h
  rw [← hlow, ← hhigh]
  obtain h | h := h <;>
    exact names_of_format policy _ pc (f := [.text "$"]) (congrArg Mode.format h) rfl

end Ram

end Disassembly

/-- When a branch is taken, by the bits of the status byte that its mnemonic stands for,
or by the bit that it tests. -/
def BranchOp.Holds (b : BranchOp) (status tested : Byte) : Prop :=
  match b with
  | bpl => status.getLsbD 7 = false
  | bmi => status.getLsbD 7 = true
  | bvc => status.getLsbD 6 = false
  | bvs => status.getLsbD 6 = true
  | bne => status.getLsbD 1 = false
  | beq => status.getLsbD 1 = true
  | bcc => status.getLsbD 0 = false
  | bcs => status.getLsbD 0 = true
  | bra => True
  | bbr bit => tested.getLsbD bit.toNat = false
  | bbs bit => tested.getLsbD bit.toNat = true

theorem BranchOp.taken_iff (b : BranchOp) (p : Flags) (v : Byte) :
    b.taken p v = true ↔ b.Holds p.toByte v := by
  have hp := p.ofByte_toByte
  generalize p.toByte = status at hp ⊢
  subst hp
  cases b <;> simp [taken, Holds, Flags.ofByte]

namespace Operation

def testsBit : Operation → Bool
  | branch (.bbr _) | branch (.bbs _) => true
  | _ => false

theorem branches_of_not_testsBit {op : Operation} (h : op.testsBit = false) (p : Flags)
    (v w : Byte) : op.branches p v = op.branches p w := by
  cases op with
  | branch op =>
    cases op with
    | bbr bit | bbs bit => cases h
    | _ => rfl
  | _ => rfl

theorem pc_consume (op : Operation) (r : Registers) (v : Byte) :
    (op.consume r v).pc = r.pc := by
  cases op with
  | read op => cases op <;> rfl
  | _ => rfl

theorem pc_perform (op : Operation) (r : Registers) : (op.perform r).pc = r.pc := by
  cases op with
  | implied op => cases op <;> rfl
  | _ => rfl

end Operation

namespace Instruction

theorem testsBit_of_relative (policy : Policy) (opcode : Byte) :
    (decode policy opcode).mode = .relative →
      (decode policy opcode).operation.testsBit = false := by
  revert opcode
  cases policy <;> decide

theorem mode_of_jsr (policy : Policy) (opcode : Byte) :
    (decode policy opcode).operation = .control .jsr → (decode policy opcode).mode = .jsr := by
  revert opcode
  cases policy <;> decide

theorem exists_branch (policy : Policy) (opcode : Byte)
    (h : (decode policy opcode).mode = .relative ∨
      (decode policy opcode).mode = .zeroPageRelative) :
    ∃ b : BranchOp, (decode policy opcode).operation = .branch b := by
  have ha := accepts_decode policy opcode
  have hk : (decode policy opcode).mode.kind? = some .branch := by
    obtain h | h := h <;> rw [h] <;> rfl
  rw [hk] at ha
  cases hop : (decode policy opcode).operation with
  | branch b => exact ⟨b, rfl⟩
  | _ => simp [hop, Operation.accepts, Operation.kind] at ha

/-- What neither branches nor leaves its work to the mode has a straight mode, or
suspends the processor. -/
theorem straight_or_halt (policy : Policy) (opcode : Byte)
    (hb : (decode policy opcode).operation.kind ≠ .branch)
    (hc : (decode policy opcode).operation.kind ≠ .control) :
    (decode policy opcode).mode.Straight ∨ (decode policy opcode).mode = .halt := by
  -- every other mode serves another kind of operation, or none
  have ha := accepts_decode policy opcode
  cases hm : (decode policy opcode).mode with
  | implied => exact .inl .implied
  | accumulator => exact .inl .accumulator
  | immediate => exact .inl .immediate
  | memory form use => exact .inl (.memory form use)
  | push => exact .inl .push
  | pull => exact .inl .pull
  | halt => exact .inr rfl
  | _ => simp_all [Mode.kind?, Operation.accepts]

theorem pc_step {i : Instruction} (h : i.mode.Straight) (r : Registers) (ram : Memory) :
    (i.step r ram).1.pc = r.pc + .ofNat 16 i.mode.length := by
  obtain ⟨opcode, op, mode⟩ := i
  dsimp only at h
  cases h with
  | implied => exact op.pc_perform _
  | accumulator => rfl
  | immediate => exact op.pc_consume _ _
  | push => rfl
  | pull => exact op.pc_consume _ _
  | memory form use =>
    cases use with
    | read => exact op.pc_consume _ _
    | write => rfl
    | modify => rfl

end Instruction

def State.fetched (s : State) (policy : Policy) (r : Registers) (opcode : Byte) : State :=
  (s.startAt r).executed policy .fetchOpcode opcode

namespace MicroOp

variable (s : State) (ram : Memory)

theorem actAll_takeBranch :
    ∃ l : Latches, actAll [.branchFixup] (s.takeBranch, ram) =
      ({ s with
          regs.pc := s.regs.pc + s.latches.data.displacement
          latches := l }, ram) := by
  rw [State.takeBranch]
  split
  · exact ⟨_, rfl⟩
  · exact ⟨_, rfl⟩

/-- A branch is decided by the byte latched before its offset, which replaces it. -/
theorem actAll_branching (hc : s.latches.carry = false) :
    let next := s.regs.pc + 1
    ∃ l : Latches, actAll Mode.branching (s, ram) =
      ({ s with
          regs.pc :=
            if s.decideBranch then next + (ram.peek s.regs.pc).displacement else next
          latches := l }, ram) := by
  intro next
  let t := branchOffset.complete s (ram.peek s.regs.pc)
  have hoffset : actAll Mode.branching (s, ram) =
      actAll [.branchTaken, .branchFixup] (t, ram) := rfl
  rw [hoffset]
  cases hb : s.decideBranch with
  | false =>
    have hall : ∀ op ∈ [MicroOp.branchTaken, .branchFixup], op.passedOver t = true := by
      simp [passedOver, t, complete, State.withData, State.bumpPc, State.withPc, hb, hc]
    rw [actAll_of_passedOver hall]
    exact ⟨_, rfl⟩
  | true =>
    have htaken : branchTaken.passedOver t = false := by
      simp [passedOver, t, complete, hb]
    rw [actAll_cons, htaken]
    exact actAll_takeBranch t ram

theorem actAll_jsr :
    let back := s.regs.pc + 1
    let pushed := (ram.poke (Registers.inStack s.regs.sp) back.high).poke
      (Registers.inStack (s.regs.sp - 1)) back.low
    ∃ l : Latches, actAll Mode.jsr.microOps (s, ram) =
      ({ s with
          regs.sp := s.regs.sp - 1 - 1
          regs.pc := .ofBytes (ram.peek s.regs.pc) (pushed.peek back)
          latches := l }, pushed) :=
  ⟨_, rfl⟩

theorem actAll_jumpAbsolute :
    ∃ l : Latches, actAll Mode.jumpAbsolute.microOps (s, ram) =
      ({ s with
          regs.pc := .ofBytes (ram.peek s.regs.pc) (ram.peek (s.regs.pc + 1))
          latches := l }, ram) :=
  ⟨_, rfl⟩

theorem actAll_halt :
    actAll Mode.halt.microOps (s, ram) = (s.perform, ram) := rfl

theorem actAll_branch (policy : Policy) (r : Registers)
    (h : (Instruction.decode policy (ram.peek r.pc)).mode = .relative ∨
      (Instruction.decode policy (ram.peek r.pc)).mode = .zeroPageRelative) :
    let i := Instruction.decode policy (ram.peek r.pc)
    let t := s.fetched policy r (ram.peek r.pc)
    let tested := ram.peek (ram.peek (r.pc + 1)).toWord
    let next := r.pc + .ofNat 16 i.mode.length
    let offset := ram.peek (r.pc + if i.mode = .zeroPageRelative then 2 else 1)
    ∃ l : Latches, actAll i.mode.microOps (t, ram) =
      ({ t with
          regs := { r with
            pc := if i.operation.branches r.p tested then next + offset.displacement else next }
          latches := l }, ram) := by
  intro i t tested next offset
  have hi : i.mode = .relative ∨ i.mode = .zeroPageRelative := h
  obtain hm | hm := hi
  · -- the byte latched last is the opcode, at which no flag branch looks
    have hflag : i.operation.testsBit = false := Instruction.testsBit_of_relative policy _ hm
    have hdecide : i.operation.branches r.p tested = t.decideBranch :=
      Operation.branches_of_not_testsBit hflag _ _ _
    have hnext : next = r.pc + 1 + 1 := by
      simp only [next, hm]
      exact r.pc.add_two
    have hoffset : offset = ram.peek (r.pc + 1) := by
      simp only [offset, hm]
      rfl
    obtain ⟨l, hl⟩ := actAll_branching t ram rfl
    refine ⟨l, ?_⟩
    rw [hm, hdecide, hnext, hoffset]
    exact hl
  · -- the byte latched last is the one to be tested, and the offset is the third byte
    have hnext : next = r.pc + 1 + 1 + 1 := by
      simp only [next, hm, ← r.pc.add_two]
      exact (BitVec.add_assoc r.pc 2 1).symm
    have hoffset : offset = ram.peek (r.pc + 1 + 1) := by
      simp only [offset, hm, if_true, r.pc.add_two]
    let u : State := ((t.bumpPc.withAddress (ram.peek (r.pc + 1)).toWord).withData tested)
    obtain ⟨l, hl⟩ := actAll_branching u ram rfl
    refine ⟨l, ?_⟩
    rw [hm, hnext, hoffset]
    exact hl

end MicroOp

namespace Computer

section Flow

variable (c : Cpu) (r : Registers) {ram : Memory} (hf : ram.Full) {bus : Bus}
  (hq : bus.inputs = .quiet) (edges : Edges) {limit : Nat} (hl : 7 ≤ limit)

include hf hq hl

theorem instruction_of_actAll {t : State} {ram' : Memory}
    (h : MicroOp.actAll (Instruction.decode c.config.policy (ram.peek r.pc)).mode.microOps
      (c.state.fetched c.config.policy r (ram.peek r.pc), ram) = (t, ram')) :
    let m : Computer := ⟨(c.startAt r, [ram]), bus, edges⟩
    let e := (m.instruction limit).computer
    e.cpu.state.step = 0 ∧ e.cpu.state.regs = t.regs ∧ e.memories = [ram'] := by
  intro m e
  have hcycles := (Instruction.cycles_decode_le c.config.policy (ram.peek r.pc)).trans hl
  obtain ⟨hstate, -, hmem⟩ := instruction_startAt c r hf hq edges hcycles
  have hs : e.cpu.state = t.concluded c.state.requests.nmi :=
    hstate.trans (congrArg (fun p : State × Memory => p.1.concluded _) h)
  have hram : e.memories = [ram'] := hmem.trans (congrArg (fun p : State × Memory => [p.2]) h)
  refine ⟨congrArg State.step hs, ?_, hram⟩
  rw [hs]
  rfl

theorem pc_of_straight
    (hb : (Instruction.decode c.config.policy (ram.peek r.pc)).operation.kind ≠ .branch)
    (hc : (Instruction.decode c.config.policy (ram.peek r.pc)).operation.kind ≠ .control) :
    let i := Instruction.decode c.config.policy (ram.peek r.pc)
    let m : Computer := ⟨(c.startAt r, [ram]), bus, edges⟩
    (m.instruction limit).computer.cpu.state.regs.pc = r.pc + .ofNat 16 i.mode.length := by
  intro i m
  let s := c.state.fetched c.config.policy r (ram.peek r.pc)
  obtain hm | hm := Instruction.straight_or_halt _ _ hb hc
  · obtain ⟨l, hacts⟩ := MicroOp.actAll_microOps s ram i r hm (Instruction.runs_of_implied _ _)
    obtain ⟨-, hregs, -⟩ := instruction_of_actAll c r hf hq edges hl hacts
    rw [hregs]
    exact Instruction.pc_step hm r ram
  · have hacts := MicroOp.actAll_halt s ram
    rw [← hm] at hacts
    obtain ⟨-, hregs, -⟩ := instruction_of_actAll c r hf hq edges hl hacts
    rw [hregs, hm]
    exact Operation.pc_perform _ _

theorem pc_of_jump
    (hm : (Instruction.decode c.config.policy (ram.peek r.pc)).mode = .jumpAbsolute) :
    let m : Computer := ⟨(c.startAt r, [ram]), bus, edges⟩
    (m.instruction limit).computer.cpu.state.regs.pc =
      .ofBytes (ram.peek (r.pc + 1)) (ram.peek (r.pc + 2)) := by
  intro m
  let s := c.state.fetched c.config.policy r (ram.peek r.pc)
  obtain ⟨l, hacts⟩ := MicroOp.actAll_jumpAbsolute s ram
  rw [← hm] at hacts
  obtain ⟨-, hregs, -⟩ := instruction_of_actAll c r hf hq edges hl hacts
  rw [hregs, r.pc.add_two]
  rfl

theorem pc_of_call
    (hm : (Instruction.decode c.config.policy (ram.peek r.pc)).mode = .jsr) :
    let back := r.pc + 2
    let pushed := (ram.poke (Registers.inStack r.sp) back.high).poke
      (Registers.inStack (r.sp - 1)) back.low
    let m : Computer := ⟨(c.startAt r, [ram]), bus, edges⟩
    (m.instruction limit).computer.cpu.state.regs.pc =
      .ofBytes (ram.peek (r.pc + 1)) (pushed.peek back) := by
  intro back pushed m
  let s := c.state.fetched c.config.policy r (ram.peek r.pc)
  have hback : back = s.regs.pc + 1 := r.pc.add_two
  obtain ⟨l, hacts⟩ := MicroOp.actAll_jsr s ram
  rw [← hm] at hacts
  obtain ⟨-, hregs, -⟩ := instruction_of_actAll c r hf hq edges hl hacts
  simp only [pushed, hback]
  rw [hregs]
  rfl

end Flow

/-- Where the disassembly of the bytes from the program counter on says that an instruction
leads, there it goes: a branch whose condition holds to the address named, a jump or a call
to an absolute address too, unless the call pushes over it, and all that neither branches
nor jumps on by its length, as does a branch whose condition fails. -/
theorem flow_as_disassembled (c : Cpu) (r : Registers) {ram : Memory} (hf : ram.Full)
    {bus : Bus} (hq : bus.inputs = .quiet) (edges : Edges) {limit : Nat} (hl : 7 ≤ limit) {n : Nat}
    (hn : 3 ≤ n) :
    let i := Instruction.decode c.config.policy (ram.peek r.pc)
    let d := Disassembly.ofBytes c.config.policy (ram.bytesFrom r.pc n) r.pc
    let m : Computer := ⟨(c.startAt r, [ram]), bus, edges⟩
    let e := (m.instruction limit).computer
    let pc := e.cpu.state.regs.pc
    let next := r.pc + .ofNat 16 d.length
    let tested := ram.peek (ram.peek (r.pc + 1)).toWord
    e.cpu.state.step = 0 ∧
    (i.mode = .relative ∨ i.mode = .zeroPageRelative →
      ∃ b : BranchOp, i.operation = .branch b ∧ b.mnemonic.toList <+: d.text.toList ∧
        (b.Holds r.p.toByte tested → d.Names pc) ∧ (¬ b.Holds r.p.toByte tested → pc = next) ∧
        e.cpu.state.regs = { r with pc := pc } ∧ e.memories = [ram]) ∧
    (i.mode = .jumpAbsolute → d.Names pc) ∧
    (i.operation = .control .jsr → r.pc + 2 ≠ Registers.inStack r.sp →
      r.pc + 2 ≠ Registers.inStack (r.sp - 1) → d.Names pc) ∧
    (i.operation.kind ≠ .branch → i.operation.kind ≠ .control → pc = next) := by
  intro i d m e pc next tested
  have hnext : next = r.pc + .ofNat 16 i.mode.length :=
    congrArg (fun k => r.pc + .ofNat 16 k) (Disassembly.length_bytesFrom _ r.pc ram hn)
  refine ⟨?ended, ?branch, ?jump, ?call, ?straight⟩
  case ended => exact (instruction_of_actAll c r hf hq edges hl rfl).1
  case branch =>
    intro hm
    obtain ⟨b, hb⟩ := Instruction.exists_branch _ _ hm
    obtain ⟨l, hacts⟩ := MicroOp.actAll_branch c.state ram c.config.policy r hm
    obtain ⟨-, hregs, hmem⟩ := instruction_of_actAll c r hf hq edges hl hacts
    have hbranches : i.operation.branches r.p tested = b.taken r.p tested :=
      congrArg (fun op : Operation => op.branches r.p tested) hb
    have htaken : i.operation.branches r.p tested = true ↔ b.Holds r.p.toByte tested := by
      rw [hbranches]
      exact b.taken_iff r.p tested
    have hpc : pc = if i.operation.branches r.p tested then _ else _ :=
      congrArg Registers.pc hregs
    refine ⟨b, hb, ?_, ?_, ?_, ?_, hmem⟩
    · have hshown := Disassembly.mnemonic_prefix c.config.policy (ram.bytesFrom r.pc n) r.pc
      rwa [Disassembly.byteAt_zero r.pc ram hn, hb] at hshown
    · intro hholds
      rw [hpc, if_pos (htaken.2 hholds)]
      exact Disassembly.names_target _ r.pc ram hn hm
    · intro hfails
      rw [hpc, if_neg (mt htaken.1 hfails), hnext]
    · rw [hpc]
      exact hregs
  case jump =>
    intro hm
    have hpc : pc = _ := pc_of_jump c r hf hq edges hl hm
    rw [hpc]
    exact Disassembly.names_word _ r.pc ram hn (.inl hm)
  case call =>
    intro hop h0 h1
    have hm : i.mode = .jsr := Instruction.mode_of_jsr _ _ hop
    have hpc : pc = _ := pc_of_call c r hf hq edges hl hm
    rw [hpc, (hf.poke _ _).peek_poke, if_neg h1, hf.peek_poke, if_neg h0]
    exact Disassembly.names_word _ r.pc ram hn (.inr hm)
  case straight =>
    intro hb hc
    rw [hnext]
    exact pc_of_straight c r hf hq edges hl hb hc

/-- `BBS3 $10,$0313`, taken from one page into the next. -/
theorem flow_as_disassembled_bit_branch :
    let code := ((Memory.blank.poke 0x02F0 0xBF).poke 0x02F1 0x10).poke 0x02F2 0x20
    let ram := code.poke 0x0010 0x08
    let r : Registers := { Registers.powerOn with pc := 0x02F0 }
    let m : Computer := ⟨((Cpu.powerOn .standard).startAt r, [ram]), .quiet, ⟨0⟩⟩
    let e := (m.instruction 7).computer
    (Disassembly.ofBytes .sized (ram.bytesFrom 0x02F0 3) 0x02F0).text = "BBS3 $10,$0313" ∧
      e.cpu.state.regs = { r with pc := 0x0313 } ∧ e.memories = [ram] := by
  intro code ram r m e
  have h0 := Memory.full_blank
  have h1 := h0.poke 0x02F0 0xBF
  have h2 := h1.poke 0x02F1 0x10
  have h3 := h2.poke 0x02F2 0x20
  have hf : ram.Full := h3.poke 0x0010 0x08
  have hpeek (a : Word) : ram.peek a = if a = 0x0010 then 0x08 else if a = 0x02F2 then 0x20 else
      if a = 0x02F1 then 0x10 else if a = 0x02F0 then 0xBF else 0 := by
    rw [h3.peek_poke, h2.peek_poke, h1.peek_poke, h0.peek_poke, Memory.peek_blank]
  clear_value ram
  have hbytes : ram.bytesFrom 0x02F0 3 = [0xBF, 0x10, 0x20] := by
    simp only [Memory.bytesFrom, hpeek]
    decide
  have hd : Disassembly.ofBytes .sized (ram.bytesFrom 0x02F0 3) 0x02F0 = ⟨"BBS3 $10,$0313", 3⟩ := by
    rw [hbytes]
    decide
  have hi : Instruction.decode .sized (ram.peek r.pc) =
      ⟨0xBF, .branch (.bbs 3), .zeroPageRelative⟩ := by
    have hop : ram.peek r.pc = 0xBF := hpeek _
    rw [hop]
    decide
  have hq : Bus.quiet.inputs = .quiet := rfl
  obtain ⟨-, hbranch, -⟩ :=
    flow_as_disassembled (Cpu.powerOn .standard) r hf hq ⟨0⟩ (Nat.le_refl 7) (Nat.le_refl 3)
  obtain ⟨b, hb, -, hpc, -, hregs, hmem⟩ := hbranch (.inr (congrArg Instruction.mode hi))
  have hbit : b = .bbs 3 := Operation.branch.inj (hb.symm.trans (congrArg Instruction.operation hi))
  have htested : ram.peek (ram.peek (r.pc + 1)).toWord = 0x08 := by
    simp only [hpeek]
    decide
  have hholds : b.Holds r.p.toByte (ram.peek (ram.peek (r.pc + 1)).toWord) := by
    rw [hbit, htested]
    rfl
  have hnames : (Disassembly.ofBytes .sized (ram.bytesFrom 0x02F0 3) 0x02F0).Names 0x0313 := by
    rw [hd]
    decide
  rw [(hpc hholds).eq hnames] at hregs
  exact ⟨congrArg Disassembly.text hd, hregs, hmem⟩

end Computer

end Cmos6502
