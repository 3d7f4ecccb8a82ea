import Cmos6502.Proofs.BinaryArithmetic
import Mathlib.Data.List.Induction

namespace Cmos6502

theorem binaryValue_append (as bs : List Byte) :
    binaryValue (as ++ bs) = binaryValue as + 256 ^ as.length * binaryValue bs := by
  rw [binaryValue, valueIn, List.map_append, Nat.ofDigits_append, List.length_map]
  rfl

theorem binaryValue_inj {as bs : List Byte} (hlen : as.length = bs.length)
    (h : binaryValue as = binaryValue bs) : as = bs := by
  have hlt (cs : List Byte) : ∀ d ∈ cs.map BitVec.toNat, d < 256 :=
    List.forall_mem_map.2 fun b _ => b.isLt
  have hdigits : as.map BitVec.toNat = bs.map BitVec.toNat :=
    Nat.ofDigits_inj_of_len_eq (by decide) (by simpa using hlen) (hlt as) (hlt bs) h
  exact (List.map_inj_right fun _ _ => BitVec.eq_of_toNat_eq).1 hdigits

namespace ModifyOp

def leaves (op : ModifyOp) (r : Registers) (v : Byte) : Registers :=
  { r with p := (op.apply r v).2 }

def Moves : ModifyOp → Prop
  | asl | lsr | rol | ror => True
  | _ => False

variable (r : Registers) (v : Byte)

theorem rol_exact :
    (rol.apply r v).1.toNat + 256 * (rol.leaves r v).p.carry.toNat =
      2 * v.toNat + r.p.carry.toNat := by
  change (v <<< 1 ||| (BitVec.ofBool r.p.carry).setWidth 8).toNat + 256 * (v.getLsbD 7).toNat = _
  revert v
  cases r.p.carry <;> decide

theorem ror_exact :
    2 * (ror.apply r v).1.toNat + (ror.leaves r v).p.carry.toNat =
      v.toNat + 256 * r.p.carry.toNat := by
  change 2 * (v >>> 1 ||| (BitVec.ofBool r.p.carry).setWidth 8 <<< 7).toNat +
    (v.getLsbD 0).toNat = _
  revert v
  cases r.p.carry <;> decide

theorem asl_eq_rol : asl.apply r v = rol.apply { r with p.carry := false } v := by
  simp [apply, apply.shifted, Flags.withResult]

theorem lsr_eq_ror : lsr.apply r v = ror.apply { r with p.carry := false } v := by
  simp [apply, apply.shifted, Flags.withResult]

end ModifyOp

namespace Registers

/-- A chain of changes in place: what the bytes become, and the processor after the last. Each
operation finds the flags as the one before has left them. -/
def thread : Registers → List (ModifyOp × Byte) → List Byte × Registers
  | r, [] => ([], r)
  | r, (op, v) :: steps =>
    let rest := thread (op.leaves r v) steps
    ((op.apply r v).1 :: rest.1, rest.2)

/-- Every byte with its operation, which for the first one may be another. -/
def headed (first op : ModifyOp) : List Byte → List (ModifyOp × Byte)
  | [] => []
  | b :: bs => (first, b) :: bs.map (op, ·)

def upwards (first op : ModifyOp) (r : Registers) (bs : List Byte) : List Byte × Registers :=
  r.thread (headed first op bs)

def downwards (first op : ModifyOp) (r : Registers) (bs : List Byte) : List Byte × Registers :=
  let x := r.thread (headed first op bs.reverse)
  (x.1.reverse, x.2)

def rotateLeft : Registers → List Byte → List Byte × Registers := upwards .rol .rol

def rotateRight : Registers → List Byte → List Byte × Registers := downwards .ror .ror

def shiftLeft : Registers → List Byte → List Byte × Registers := upwards .asl .rol

def shiftRight : Registers → List Byte → List Byte × Registers := downwards .lsr .ror

/-- Only the flags that tell of a result may differ. -/
def Moved (r t : Registers) : Prop :=
  ∃ n z c, t = { r with p := { r.p with negative := n, zero := z, carry := c } }

variable (r : Registers) (bs : List Byte)

theorem headed_self (op : ModifyOp) : headed op op bs = bs.map (op, ·) := by
  cases bs <;> rfl

theorem moves_of_mem_headed {first op : ModifyOp} (hfirst : first.Moves) (hop : op.Moves) :
    ∀ step ∈ headed first op bs, step.1.Moves := by
  cases bs with
  | nil => exact List.forall_mem_nil _
  | cons b bs => exact List.forall_mem_cons.2 ⟨hfirst, List.forall_mem_map.2 fun _ _ => hop⟩

theorem moved_thread {steps : List (ModifyOp × Byte)} (h : ∀ step ∈ steps, step.1.Moves) :
    r.Moved (r.thread steps).2 := by
  induction steps generalizing r with
  | nil => exact ⟨_, _, _, rfl⟩
  | cons step steps ih =>
    obtain ⟨op, v⟩ := step
    obtain ⟨hop, hsteps⟩ := List.forall_mem_cons.1 h
    obtain ⟨n, z, c, hrest⟩ := ih (op.leaves r v) hsteps
    refine ⟨n, z, c, hrest.trans ?_⟩
    cases op with
    | asl | lsr | rol | ror => rfl
    | _ => exact hop.elim

theorem rotateLeft_cons (b : Byte) :
    r.rotateLeft (b :: bs) =
      let rest := (ModifyOp.rol.leaves r b).rotateLeft bs
      ((ModifyOp.rol.apply r b).1 :: rest.1, rest.2) := by
  simp only [rotateLeft, upwards, headed_self]
  rfl

theorem rotateRight_append (b : Byte) :
    r.rotateRight (bs ++ [b]) =
      let rest := (ModifyOp.ror.leaves r b).rotateRight bs
      (rest.1 ++ [(ModifyOp.ror.apply r b).1], rest.2) := by
  simp only [rotateRight, downwards, headed_self, List.reverse_append]
  exact Prod.ext List.reverse_cons rfl

theorem value_rotateLeft :
    let left := r.rotateLeft bs
    left.1.length = bs.length ∧
      binaryValue left.1 + 256 ^ bs.length * left.2.p.carry.toNat =
        2 * binaryValue bs + r.p.carry.toNat := by
  induction bs generalizing r with
  | nil => simp [rotateLeft, upwards, headed, thread, binaryValue, valueIn]
  | cons b bs ih =>
    obtain ⟨hlength, hvalue⟩ := ih (ModifyOp.rol.leaves r b)
    have hstep := ModifyOp.rol_exact r b
    rw [rotateLeft_cons]
    dsimp only
    rw [binaryValue_cons, binaryValue_cons, List.length_cons, List.length_cons, pow_succ']
    refine ⟨congrArg (· + 1) hlength, ?_⟩
    linear_combination hstep + 256 * hvalue

theorem value_rotateRight :
    let right := r.rotateRight bs
    right.1.length = bs.length ∧
      2 * binaryValue right.1 + right.2.p.carry.toNat =
        binaryValue bs + 256 ^ bs.length * r.p.carry.toNat := by
  induction bs using List.reverseRecOn generalizing r with
  | nil => simp [rotateRight, downwards, headed, thread, binaryValue, valueIn]
  | append_singleton bs b ih =>
    obtain ⟨hlength, hvalue⟩ := ih (ModifyOp.ror.leaves r b)
    have hstep := ModifyOp.ror_exact r b
    have hsingle (v : Byte) : binaryValue [v] = v.toNat := rfl
    rw [rotateRight_append]
    dsimp only
    rw [binaryValue_append, binaryValue_append, List.length_append, List.length_append, hlength,
      hsingle, hsingle, List.length_singleton, List.length_singleton, pow_succ]
    refine ⟨rfl, ?_⟩
    linear_combination hvalue + 256 ^ bs.length * hstep

variable {r t u : Registers} {bs : List Byte}

theorem Moved.trans (h : r.Moved t) (h' : t.Moved u) : r.Moved u := by
  obtain ⟨_, _, _, rfl⟩ := h
  obtain ⟨n, z, c, rfl⟩ := h'
  exact ⟨n, z, c, rfl⟩

theorem Moved.restores {ws : List Byte} (h : r.Moved t) (hlength : ws.length = bs.length)
    (hvalue : binaryValue ws = binaryValue bs) (hcarry : t.p.carry = r.p.carry) :
    ∃ n z, (ws, t) = (bs, { r with p := { r.p with negative := n, zero := z } }) := by
  obtain ⟨n, z, c, rfl⟩ := h
  have hc : c = r.p.carry := hcarry
  exact ⟨n, z, by rw [hc, binaryValue_inj hlength hvalue]⟩

theorem moved_rotateLeft (r : Registers) (bs : List Byte) : r.Moved (r.rotateLeft bs).2 :=
  moved_thread r (moves_of_mem_headed bs trivial trivial)

theorem moved_rotateRight (r : Registers) (bs : List Byte) : r.Moved (r.rotateRight bs).2 :=
  moved_thread r (moves_of_mem_headed bs.reverse trivial trivial)

theorem carry_rotateLeft (hne : bs ≠ []) :
    (r.rotateLeft bs).2.p.carry = (joined bs).msb := by
  obtain ⟨hlength, hvalue⟩ := value_rotateLeft r bs
  obtain ⟨q, -, hrange, hhalf⟩ := exists_half hne
  have hp : 256 ^ bs.length = 2 * q := (pow_mul 2 8 bs.length).symm.trans hrange
  have hlt := binaryValue_lt (r.rotateLeft bs).1
  have hc := r.p.carry.toNat_le
  rw [hlength] at hlt
  obtain ⟨-, hcarry⟩ := eq_mod_of_carry hlt hvalue
  rw [BitVec.msb_eq_decide, toNat_joined, hhalf, Bool.eq_iff_iff, hcarry, hp, decide_eq_true_iff]
  omega

theorem carry_rotateRight (hne : bs ≠ []) :
    (r.rotateRight bs).2.p.carry.toNat = binaryValue bs % 2 := by
  obtain ⟨-, hvalue⟩ := value_rotateRight r bs
  obtain ⟨q, -, hrange, -⟩ := exists_half hne
  have hp : 256 ^ bs.length = 2 * q := (pow_mul 2 8 bs.length).symm.trans hrange
  have hc := (r.rotateRight bs).2.p.carry.toNat_le
  have heven : 256 ^ bs.length * r.p.carry.toNat = 2 * (q * r.p.carry.toNat) := by
    rw [hp, Nat.mul_assoc]
  omega

theorem rotateRight_rotateLeft (r : Registers) (bs : List Byte) :
    let left := r.rotateLeft bs
    ∃ n z, left.2.rotateRight left.1 =
      (bs, { r with p := { r.p with negative := n, zero := z } }) := by
  intro left
  let back := left.2.rotateRight left.1
  obtain ⟨hlength, hvalue⟩ := value_rotateLeft r bs
  obtain ⟨hlength', hvalue'⟩ := value_rotateRight left.2 left.1
  rw [hlength] at hlength' hvalue'
  have hbalance : 2 * binaryValue back.1 + back.2.p.carry.toNat =
      2 * binaryValue bs + r.p.carry.toNat := hvalue'.trans hvalue
  have hc := r.p.carry.toNat_le
  have hc' := back.2.p.carry.toNat_le
  have hbytes : binaryValue back.1 = binaryValue bs := by omega
  have hcarry : back.2.p.carry = r.p.carry := by
    rw [Bool.eq_iff_iff, ← Bool.toNat_eq_one, ← Bool.toNat_eq_one]
    omega
  have hmoved : r.Moved back.2 :=
    (moved_rotateLeft r bs).trans (moved_rotateRight left.2 left.1)
  exact hmoved.restores hlength' hbytes hcarry

theorem rotateLeft_rotateRight (r : Registers) (bs : List Byte) :
    let right := r.rotateRight bs
    ∃ n z, right.2.rotateLeft right.1 =
      (bs, { r with p := { r.p with negative := n, zero := z } }) := by
  intro right
  let back := right.2.rotateLeft right.1
  obtain ⟨hlength, hvalue⟩ := value_rotateRight r bs
  obtain ⟨hlength', hvalue'⟩ := value_rotateLeft right.2 right.1
  rw [hlength] at hlength' hvalue'
  have hbalance : binaryValue back.1 + 256 ^ bs.length * back.2.p.carry.toNat =
      binaryValue bs + 256 ^ bs.length * r.p.carry.toNat := hvalue'.trans hvalue
  have hlt := binaryValue_lt back.1
  rw [hlength'] at hlt
  obtain ⟨hmod, hover⟩ := eq_mod_of_carry hlt hbalance
  obtain ⟨hmod', hover'⟩ := eq_mod_of_carry (binaryValue_lt bs) (rfl :
    binaryValue bs + 256 ^ bs.length * r.p.carry.toNat = _)
  have hbytes : binaryValue back.1 = binaryValue bs := hmod.trans hmod'.symm
  have hcarry : back.2.p.carry = r.p.carry := Bool.eq_iff_iff.2 (hover.trans hover'.symm)
  have hmoved : r.Moved back.2 :=
    (moved_rotateRight r bs).trans (moved_rotateLeft right.2 right.1)
  exact hmoved.restores hlength' hbytes hcarry

theorem shiftLeft_eq (hne : bs ≠ []) :
    r.shiftLeft bs = { r with p.carry := false }.rotateLeft bs := by
  cases bs with
  | nil => exact absurd rfl hne
  | cons b bs =>
    simp only [shiftLeft, rotateLeft, upwards, headed, thread, ModifyOp.leaves,
      ModifyOp.asl_eq_rol]

theorem shiftRight_eq (hne : bs ≠ []) :
    r.shiftRight bs = { r with p.carry := false }.rotateRight bs := by
  have hrev : bs.reverse ≠ [] := mt List.reverse_eq_nil_iff.1 hne
  obtain ⟨b, rest, hb⟩ := List.exists_cons_of_ne_nil hrev
  simp only [shiftRight, rotateRight, downwards, hb, headed, thread, ModifyOp.leaves,
    ModifyOp.lsr_eq_ror]

/-- Rotated byte by byte through the carry, a number is doubled or halved as a whole, however
long it is: what leaves it at the one end is the carry, and the carry before comes in at the
other. A rotation takes back the other one, bytes and carry, and no register and no flag but
those that tell of a result ever changes. -/
theorem rotation_exact (r : Registers) (hne : bs ≠ []) :
    let n := bs.length
    let x := binaryValue bs
    let c := r.p.carry.toNat
    let left := r.rotateLeft bs
    let right := r.rotateRight bs
    let clear : Registers := { r with p.carry := false }
    (left.1.length = n ∧ binaryValue left.1 = (2 * x + c) % 256 ^ n ∧
      left.2.p.carry = (joined bs).msb) ∧
    (right.1.length = n ∧ binaryValue right.1 = (x + c * 256 ^ n) / 2 ∧
      right.2.p.carry.toNat = x % 2) ∧
    r.shiftLeft bs = clear.rotateLeft bs ∧ r.shiftRight bs = clear.rotateRight bs ∧
    (∃ n z, left.2.rotateRight left.1 =
      (bs, { r with p := { r.p with negative := n, zero := z } })) ∧
    (∃ n z, right.2.rotateLeft right.1 =
      (bs, { r with p := { r.p with negative := n, zero := z } })) ∧
    r.Moved left.2 ∧ r.Moved right.2 ∧ r.Moved (r.shiftLeft bs).2 ∧
    r.Moved (r.shiftRight bs).2 := by
  intro n x c left right clear
  obtain ⟨hlength, hvalue⟩ := value_rotateLeft r bs
  obtain ⟨hlength', hvalue'⟩ := value_rotateRight r bs
  refine ⟨⟨hlength, ?left, carry_rotateLeft hne⟩, ⟨hlength', ?right, carry_rotateRight hne⟩,
    shiftLeft_eq hne, shiftRight_eq hne, rotateRight_rotateLeft r bs, rotateLeft_rotateRight r bs,
    moved_rotateLeft r bs, moved_rotateRight r bs,
    moved_thread r (moves_of_mem_headed bs trivial trivial),
    moved_thread r (moves_of_mem_headed bs.reverse trivial trivial)⟩
  case left =>
    have hlt := binaryValue_lt left.1
    rw [hlength] at hlt
    exact (eq_mod_of_carry hlt hvalue).1
  case right =>
    have hc := right.2.p.carry.toNat_le
    change 2 * binaryValue right.1 + right.2.p.carry.toNat = x + 256 ^ n * c at hvalue'
    rw [Nat.mul_comm c]
    omega

/-- `$8001` with the carry clear: the top bit leaves to the left, the bottom bit to the right. -/
theorem rotation_exact_both_ends :
    let bs : List Byte := [0x01, 0x80]
    bs ≠ [] ∧ (powerOn.rotateLeft bs).2.p.carry = true ∧
      binaryValue (powerOn.rotateLeft bs).1 = 0x0002 ∧
      (powerOn.rotateRight bs).2.p.carry.toNat = 1 ∧
      binaryValue (powerOn.rotateRight bs).1 = 0x4000 ∧
      ∃ n z, (powerOn.rotateLeft bs).2.rotateRight (powerOn.rotateLeft bs).1 =
        (bs, { powerOn with p := { powerOn.p with negative := n, zero := z } }) := by
  intro bs
  have hne : bs ≠ [] := by decide
  obtain ⟨⟨-, hleft, htop⟩, ⟨-, hright, hbottom⟩, -, -, hback, -⟩ := rotation_exact powerOn hne
  exact ⟨hne, htop.trans (by decide), hleft.trans (by decide), hbottom.trans (by decide),
    hright.trans (by decide), hback⟩

end Registers

end Cmos6502
