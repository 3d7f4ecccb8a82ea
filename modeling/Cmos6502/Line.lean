namespace Cmos6502

inductive Polarity where
  | activeHigh
  | activeLow
deriving DecidableEq

/-- A control wire, known by its level; its polarity says which level asserts
it. -/
structure Line (p : Polarity) where
  high : Bool
deriving DecidableEq

namespace Line

variable {p : Polarity}

def asserted (l : Line p) : Bool :=
  match p with
  | .activeHigh => l.high
  | .activeLow => !l.high

def ofAsserted (on : Bool) : Line p :=
  match p with
  | .activeHigh => ⟨on⟩
  | .activeLow => ⟨!on⟩

def released : Line p := ofAsserted false

def held : Line p := ofAsserted true

@[simp] theorem asserted_ofAsserted (on : Bool) : (ofAsserted on : Line p).asserted = on := by
  cases p <;> simp [asserted, ofAsserted]

@[simp] theorem ofAsserted_asserted (l : Line p) : ofAsserted l.asserted = l := by
  cases p <;> simp [asserted, ofAsserted]

@[simp] theorem asserted_released : (released : Line p).asserted = false :=
  asserted_ofAsserted false

@[simp] theorem asserted_held : (held : Line p).asserted = true :=
  asserted_ofAsserted true

end Line

end Cmos6502
