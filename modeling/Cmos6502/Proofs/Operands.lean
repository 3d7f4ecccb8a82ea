import Cmos6502.Proofs.Beats
import Cmos6502.Proofs.Semantics

namespace Cmos6502

def heard (l : List Beat) (k : Nat) : Byte := (l[k]?.map Beat.data).getD 0

namespace Form

/-- Where an index is added with a carry into the high byte: the base and the index,
by the bytes `b` that the cycles of addressing bring. -/
def base? (form : Form) (r : Registers) (b : Nat → Byte) : Option (Word × Byte) :=
  match form with
  | absoluteIndexed i => some (.ofBytes (b 0) (b 1), i.value r)
  | indirectIndexed => some (.ofBytes (b 1) (b 2), r.y)
  | _ => none

def fixed (form : Form) (i : Instruction) (r : Registers) (b : Nat → Byte) : Bool :=
  (form.base? r b).any fun p => !p.1.samePage (p.1 + p.2.toWord) || i.alwaysFixed

def target (form : Form) (r : Registers) (b : Nat → Byte) : Word :=
  match form with
  | zeroPage => (b 0).toWord
  | zeroPageIndexed i => Byte.toWord (b 0 + i.value r)
  | absolute => .ofBytes (b 0) (b 1)
  | absoluteIndexed i => .ofBytes (b 0) (b 1) + (i.value r).toWord
  | zeroPageIndirect => .ofBytes (b 1) (b 2)
  | indexedIndirect => .ofBytes (b 2) (b 3)
  | indirectIndexed => .ofBytes (b 1) (b 2) + r.y.toWord

/-- The addresses read before the effective address is formed: those of the operand
bytes from `pc` on, the first of which is `z`, the base in page zero while it is
indexed, the two bytes of a pointer, and for a fixup the last operand byte again. -/
def approach (form : Form) (pc : Word) (x z : Byte) (fixed : Bool) : List Word :=
  match form with
  | zeroPage => [pc]
  | zeroPageIndexed _ => [pc, z.toWord]
  | absolute => [pc, pc + 1]
  | absoluteIndexed _ => [pc, pc + 1] ++ if fixed then [pc + 1] else []
  | zeroPageIndirect => [pc, z.toWord, Byte.toWord (z + 1)]
  | indexedIndirect => [pc, z.toWord, Byte.toWord (z + x), Byte.toWord (z + x + 1)]
  | indirectIndexed =>
    [pc, z.toWord, Byte.toWord (z + 1)] ++ if fixed then [pc] else []

end Form

def Use.touches (use : Use) (a : Word) : List (Word × Bool) :=
  match use with
  | .read => [(a, false)]
  | .write => [(a, true)]
  | .modify => [(a, false), (a, false), (a, true)]

namespace MicroOp

variable {s t : State} {l : List Beat} {as : List (MicroOp × Transfer)}

theorem Performs.of_pageFixup {owed : Bool} {a : Word} (h : Performs [.pageFixup] s l as t)
    (hc : s.latches.carry = owed) (ha : s.regs.pc - 1 = a) :
    as.map Prod.snd = (if owed then [a] else []).map Transfer.read ∧
      t.latches.address = s.latches.address := by
  subst hc ha
  cases h with
  | skip hp h =>
    cases h
    have hc : s.latches.carry = false := by simpa [passedOver] using hp
    rw [hc]
    exact ⟨rfl, rfl⟩
  | cycle hp h =>
    cases h
    have hc : s.latches.carry = true := by simpa [passedOver] using hp
    rw [hc]
    exact ⟨rfl, rfl⟩

theorem Performs.of_addressing {form : Form} (h : Performs form.addressing s l as t)
    (more : List Beat) :
    let b := heard (l ++ more)
    as.map Prod.snd = (form.approach s.regs.pc s.regs.x (b 0)
        (form.fixed s.instruction s.regs b)).map Transfer.read ∧
      t.latches.address = form.target s.regs b := by
  intro b
  cases form with
  | zeroPage =>
    obtain ⟨b₀, _, _, rfl, rfl, h₁⟩ := h.of_cons rfl
    cases h₁
    exact ⟨rfl, rfl⟩
  | zeroPageIndexed i =>
    obtain ⟨b₀, _, _, rfl, rfl, h₁⟩ := h.of_cons rfl
    obtain ⟨b₁, _, _, rfl, rfl, h₂⟩ := h₁.of_cons rfl
    cases h₂
    -- the base goes through the address latch, of which only the low byte is used
    have hlow := Byte.low_toWord b₀.data
    constructor
    · exact congrArg (fun z => [Transfer.read s.regs.pc, .read (Byte.toWord z)]) hlow
    · cases i <;> exact congrArg (fun z => Byte.toWord (z + _)) hlow
  | absolute =>
    obtain ⟨b₀, _, _, rfl, rfl, h₁⟩ := h.of_cons rfl
    obtain ⟨b₁, _, _, rfl, rfl, h₂⟩ := h₁.of_cons rfl
    cases h₂
    exact ⟨rfl, rfl⟩
  | absoluteIndexed i =>
    obtain ⟨b₀, _, _, rfl, rfl, h₁⟩ := h.of_cons rfl
    obtain ⟨b₁, _, _, rfl, rfl, h₂⟩ := h₁.of_cons rfl
    have howed : ((operandHighIndexed i).play (operandLow.play s b₀) b₁).latches.carry =
        Form.fixed (.absoluteIndexed i) s.instruction s.regs b := by
      cases i <;> rfl
    obtain ⟨hread, haddress⟩ := h₂.of_pageFixup howed (BitVec.add_sub_cancel _ _)
    constructor
    · rw [List.map_cons, List.map_cons, hread]
      rfl
    · rw [haddress]
      cases i <;> rfl
  | zeroPageIndirect =>
    obtain ⟨b₀, _, _, rfl, rfl, h₁⟩ := h.of_cons rfl
    obtain ⟨b₁, _, _, rfl, rfl, h₂⟩ := h₁.of_cons rfl
    obtain ⟨b₂, _, _, rfl, rfl, h₃⟩ := h₂.of_cons rfl
    cases h₃
    have hlow := Byte.low_toWord b₀.data
    refine ⟨?_, rfl⟩
    exact congrArg (fun z => [Transfer.read s.regs.pc, .read (Byte.toWord z),
      .read (Byte.toWord (z + 1))]) hlow
  | indexedIndirect =>
    obtain ⟨b₀, _, _, rfl, rfl, h₁⟩ := h.of_cons rfl
    obtain ⟨b₁, _, _, rfl, rfl, h₂⟩ := h₁.of_cons rfl
    obtain ⟨b₂, _, _, rfl, rfl, h₃⟩ := h₂.of_cons rfl
    obtain ⟨b₃, _, _, rfl, rfl, h₄⟩ := h₃.of_cons rfl
    cases h₄
    have hlow := Byte.low_toWord b₀.data
    have hsum := (Byte.low_toWord (Word.low b₀.data.toWord + s.regs.x)).trans
      (congrArg (· + s.regs.x) hlow)
    refine ⟨?_, rfl⟩
    exact congrArg₂ (fun z y => [Transfer.read s.regs.pc, .read (Byte.toWord z),
      .read (Byte.toWord y), .read (Byte.toWord (y + 1))]) hlow hsum
  | indirectIndexed =>
    obtain ⟨b₀, _, _, rfl, rfl, h₁⟩ := h.of_cons rfl
    obtain ⟨b₁, _, _, rfl, rfl, h₂⟩ := h₁.of_cons rfl
    obtain ⟨b₂, _, _, rfl, rfl, h₃⟩ := h₂.of_cons rfl
    have hback : s.regs.pc + 1 - 1 = s.regs.pc := BitVec.add_sub_cancel _ _
    obtain ⟨hread, haddress⟩ := h₃.of_pageFixup rfl hback
    have hlow := Byte.low_toWord b₀.data
    refine ⟨?_, haddress⟩
    rw [List.map_cons, List.map_cons, List.map_cons, hread]
    exact congrArg (fun z => Transfer.read s.regs.pc :: .read (Byte.toWord z) ::
      .read (Byte.toWord (z + 1)) :: _) hlow

theorem Performs.of_use {use : Use} (h : Performs use.transfer s l as t) :
    as.map (fun a => (a.2.address, a.2.writes)) = use.touches s.latches.address := by
  cases use with
  | read | write =>
    obtain ⟨_, _, _, rfl, rfl, h₁⟩ := h.of_cons rfl
    cases h₁
    rfl
  | modify =>
    obtain ⟨_, _, _, rfl, rfl, h₁⟩ := h.of_cons rfl
    obtain ⟨_, _, _, rfl, rfl, h₂⟩ := h₁.of_cons rfl
    obtain ⟨_, _, _, rfl, rfl, h₃⟩ := h₂.of_cons rfl
    cases h₃
    rfl

end MicroOp

end Cmos6502
