import Cmos6502.Operation.Effect
import Mathlib.Data.Nat.Digits.Defs
import Mathlib.Tactic.LinearCombination

namespace Cmos6502

/-- The number whose digits in some base the bytes stand for, the lowest byte first. -/
def valueIn (base : Nat) (digit : Byte → Nat) (bs : List Byte) : Nat :=
  Nat.ofDigits base (bs.map digit)

section Values

variable {base : Nat} {digit : Byte → Nat} {bs : List Byte}

theorem valueIn_cons (b : Byte) :
    valueIn base digit (b :: bs) = digit b + base * valueIn base digit bs :=
  Nat.ofDigits_cons

theorem valueIn_lt (hbase : 1 < base) (h : ∀ b ∈ bs, digit b < base) :
    valueIn base digit bs < base ^ bs.length := by
  rw [← List.length_map digit]
  exact Nat.ofDigits_lt_base_pow_length hbase (List.forall_mem_map.2 h)

theorem valueIn_complement (h : ∀ b ∈ bs, digit b < base) :
    valueIn base (fun b => base - 1 - digit b) bs + valueIn base digit bs + 1 =
      base ^ bs.length := by
  induction bs with
  | nil => rfl
  | cons b bs ih =>
    obtain ⟨hb, hbs⟩ := List.forall_mem_cons.1 h
    have hdigit : base - 1 - digit b + digit b + 1 = base := by omega
    rw [valueIn_cons, valueIn_cons, List.length_cons, pow_succ']
    linear_combination hdigit + base * ih hbs

end Values

theorem eq_mod_of_carry {z p t : Nat} {carry : Bool} (hz : z < p) (h : z + p * carry.toNat = t) :
    z = t % p ∧ (carry = true ↔ p ≤ t) := by
  cases carry with
  | false =>
    rw [Bool.toNat_false, Nat.mul_zero, Nat.add_zero] at h
    rw [← h, Nat.mod_eq_of_lt hz]
    simpa using hz
  | true =>
    rw [Bool.toNat_true, Nat.mul_one] at h
    rw [← h, Nat.add_mod_right, Nat.mod_eq_of_lt hz]
    simp

/-- Where `e` is the complement of `y`, the sum with it is the difference, and a carry says that
nothing is borrowed. -/
theorem eq_emod_of_carry {x y e z p : Nat} {carry carry' : Bool} (hz : z < p) (he : e + y + 1 = p)
    (h : z + p * carry'.toNat = x + e + carry.toNat) :
    (z : Int) = (x - y - (1 - carry.toNat)) % p ∧
      (carry' = true ↔ (0 : Int) ≤ x - y - (1 - carry.toNat)) := by
  cases carry' with
  | false =>
    rw [Bool.toNat_false, Nat.mul_zero, Nat.add_zero] at h
    have hd : (x - y - (1 - carry.toNat) : Int) = z - p := by omega
    rw [hd, Int.sub_emod_right, Int.emod_eq_of_lt (by omega) (by omega)]
    simp
    omega
  | true =>
    rw [Bool.toNat_true, Nat.mul_one] at h
    have hd : (x - y - (1 - carry.toNat) : Int) = z := by omega
    rw [hd, Int.emod_eq_of_lt (by omega) (by omega)]
    simp

namespace Registers

/-- The processor after each byte of a chain, in which a byte of the one list is loaded and the
operation applied to it with the byte of the other. -/
def chain (op : ReadOp) : Registers → List Byte → List Byte → List Registers
  | r, x :: xs, y :: ys =>
    let t := op.apply (r.loadA x) y
    t :: chain op t xs ys
  | _, _, _ => []

theorem chain_cons (op : ReadOp) (r : Registers) (x y : Byte) (xs ys : List Byte) :
    r.chain op (x :: xs) (y :: ys) =
      op.apply (r.loadA x) y :: (op.apply (r.loadA x) y).chain op xs ys := rfl

theorem mem_chain {op : ReadOp} {r t : Registers} {xs ys : List Byte} (h : t ∈ r.chain op xs ys) :
    ∃ q y, t = op.apply q y := by
  induction xs generalizing r ys with
  | nil => cases h
  | cons x xs ih =>
    cases ys with
    | nil => cases h
    | cons y ys =>
      rw [chain_cons, List.mem_cons] at h
      obtain rfl | h := h
      · exact ⟨_, _, rfl⟩
      · exact ih h

def results (op : ReadOp) (r : Registers) (xs ys : List Byte) : List Byte :=
  (r.chain op xs ys).map a

def carryOut (op : ReadOp) (r : Registers) (xs ys : List Byte) : Bool :=
  ((r.chain op xs ys).getLastD r).p.carry

end Registers

/-- With `op` every byte of a chain is exact: the digit that it leaves and the carry are the sum
of the digit loaded, of what the operand stands for, and of the carry before. -/
structure ReadOp.Adds (op : ReadOp) (ready : Registers → Prop) (valid : Byte → Prop) (base : Nat)
    (digit term : Byte → Nat) : Prop where
  one_lt : 1 < base
  digit_lt : ∀ x, valid x → digit x < base
  ready_apply : ∀ r x y, ready r → ready (op.apply (r.loadA x) y)
  valid_apply : ∀ r x y, ready r → valid x → valid y → valid (op.apply (r.loadA x) y).a
  sum_eq : ∀ r x y, ready r → valid x → valid y →
    let t := op.apply (r.loadA x) y
    digit t.a + base * t.p.carry.toNat = digit x + term y + r.p.carry.toNat

namespace ReadOp.Adds

variable {op : ReadOp} {ready : Registers → Prop} {valid : Byte → Prop} {base : Nat}
  {digit term : Byte → Nat} {r : Registers} {xs ys : List Byte}

theorem value_chain (h : op.Adds ready valid base digit term) (hr : ready r)
    (hlen : xs.length = ys.length) (hx : ∀ x ∈ xs, valid x) (hy : ∀ y ∈ ys, valid y) :
    (r.results op xs ys).length = xs.length ∧ (∀ z ∈ r.results op xs ys, valid z) ∧
      valueIn base digit (r.results op xs ys) +
          base ^ xs.length * (r.carryOut op xs ys).toNat =
        valueIn base digit xs + valueIn base term ys + r.p.carry.toNat := by
  induction xs generalizing r ys with
  | nil =>
    cases List.length_eq_zero_iff.1 hlen.symm
    simp [Registers.results, Registers.carryOut, Registers.chain, valueIn]
  | cons x xs ih =>
    cases ys with
    | nil => cases hlen
    | cons y ys =>
      obtain ⟨hx₀, hxs⟩ := List.forall_mem_cons.1 hx
      obtain ⟨hy₀, hys⟩ := List.forall_mem_cons.1 hy
      let t := op.apply (r.loadA x) y
      have hstep : digit t.a + base * t.p.carry.toNat = digit x + term y + r.p.carry.toNat :=
        h.sum_eq r x y hr hx₀ hy₀
      have hresults : r.results op (x :: xs) (y :: ys) = t.a :: t.results op xs ys := rfl
      have hcarry : r.carryOut op (x :: xs) (y :: ys) = t.carryOut op xs ys := by
        rw [Registers.carryOut, Registers.chain_cons, List.getLastD_cons]
        rfl
      obtain ⟨hlength, hvalid, hvalue⟩ :=
        ih (h.ready_apply r x y hr) (Nat.succ.inj hlen) hxs hys
      rw [hresults, hcarry, List.length_cons, List.length_cons, pow_succ', valueIn_cons,
        valueIn_cons, valueIn_cons]
      refine ⟨congrArg (· + 1) hlength, ?_, ?_⟩
      · exact List.forall_mem_cons.2 ⟨h.valid_apply r x y hr hx₀ hy₀, hvalid⟩
      · linear_combination hstep + base * hvalue

theorem results_lt (h : op.Adds ready valid base digit term) (hr : ready r)
    (hlen : xs.length = ys.length) (hx : ∀ x ∈ xs, valid x) (hy : ∀ y ∈ ys, valid y) :
    valueIn base digit (r.results op xs ys) < base ^ xs.length := by
  obtain ⟨hlength, hvalid, -⟩ := h.value_chain hr hlen hx hy
  rw [← hlength]
  exact valueIn_lt h.one_lt fun z hz => h.digit_lt z (hvalid z hz)

theorem sum_chain (h : op.Adds ready valid base digit digit) (hr : ready r)
    (hlen : xs.length = ys.length) (hx : ∀ x ∈ xs, valid x) (hy : ∀ y ∈ ys, valid y) :
    let sum := valueIn base digit xs + valueIn base digit ys + r.p.carry.toNat
    valueIn base digit (r.results op xs ys) = sum % base ^ xs.length ∧
      (r.carryOut op xs ys = true ↔ base ^ xs.length ≤ sum) :=
  eq_mod_of_carry (h.results_lt hr hlen hx hy) (h.value_chain hr hlen hx hy).2.2

theorem difference_chain (h : op.Adds ready valid base digit fun y => base - 1 - digit y)
    (hr : ready r) (hlen : xs.length = ys.length) (hx : ∀ x ∈ xs, valid x)
    (hy : ∀ y ∈ ys, valid y) :
    let difference : Int := valueIn base digit xs - valueIn base digit ys - (1 - r.p.carry.toNat)
    valueIn base digit (r.results op xs ys) = difference % (base ^ xs.length : Nat) ∧
      (r.carryOut op xs ys = true ↔ 0 ≤ difference) := by
  have hcomplement := valueIn_complement fun y hy' => h.digit_lt y (hy y hy')
  rw [← hlen] at hcomplement
  exact eq_emod_of_carry (h.results_lt hr hlen hx hy) hcomplement
    (h.value_chain hr hlen hx hy).2.2

end ReadOp.Adds

end Cmos6502
