import Cmos6502.Bus

namespace Cmos6502

variable {ε σ τ : Type}

/-- What half an edge leaves behind: the chip, the wires, and the reports made
on the way, oldest first. -/
structure Phase (ε σ : Type) where
  chip : σ
  bus : Bus
  reports : List ε

/-- A chip drives the wires it owns in the first half of an edge and latches
what has settled on them in the second. -/
class Chip (ε σ : Type) where
  drive : σ → Bus → Phase ε σ
  latch : σ → Bus → Phase ε σ

namespace Phase

def both (half : σ → Bus → Phase ε σ) (half' : τ → Bus → Phase ε τ) (c : σ × τ) (bus : Bus) :
    Phase ε (σ × τ) :=
  let p := half c.1 bus
  let q := half' c.2 p.bus
  ⟨(p.chip, q.chip), q.bus, p.reports ++ q.reports⟩

def each (half : σ → Bus → Phase ε σ) : List σ → Bus → Phase ε (List σ)
  | [], bus => ⟨[], bus, []⟩
  | c :: cs, bus =>
    let p := half c bus
    let q := each half cs p.bus
    ⟨p.chip :: q.chip, q.bus, p.reports ++ q.reports⟩

end Phase

instance [Chip ε σ] [Chip ε τ] : Chip ε (σ × τ) where
  drive := Phase.both Chip.drive Chip.drive
  latch := Phase.both Chip.latch Chip.latch

instance [Chip ε σ] : Chip ε (List σ) where
  drive := Phase.each Chip.drive
  latch := Phase.each Chip.latch

structure Edges where
  count : Nat
deriving DecidableEq, Ord

namespace Edges

instance : Add Edges := ⟨fun m n => ⟨m.count + n.count⟩⟩

def text (n : Edges) : String := s!"{n.count} edges"

end Edges

structure Board (σ : Type) where
  chips : σ
  bus : Bus
  edges : Edges

namespace Board

def start (chips : σ) : Board σ := ⟨chips, .quiet, ⟨0⟩⟩

def edge [Chip ε σ] (b : Board σ) : Board σ × List ε :=
  let d : Phase ε σ := Chip.drive b.chips b.bus
  let l : Phase ε σ := Chip.latch d.chip d.bus
  (⟨l.chip, l.bus, b.edges + ⟨1⟩⟩, d.reports ++ l.reports)

def run [Chip ε σ] : Nat → Board σ → Board σ × List ε
  | 0, b => (b, [])
  | n + 1, b =>
    let p : Board σ × List ε := b.edge
    let q : Board σ × List ε := p.1.run n
    (q.1, p.2 ++ q.2)

end Board

end Cmos6502
