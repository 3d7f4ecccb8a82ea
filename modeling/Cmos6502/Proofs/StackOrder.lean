import Cmos6502.Proofs.DecodeLatch
import Cmos6502.Proofs.Microcode

namespace Cmos6502

namespace Registers

def stackBytes (sp : Byte) (n : Nat) : List Word :=
  (List.range n).map fun k => inStack (sp - .ofNat 8 k)

theorem stackBytes_succ (sp : Byte) (n : Nat) :
    stackBytes sp (n + 1) = inStack sp :: stackBytes (sp - 1) n := by
  have hdown (k : Nat) : sp - .ofNat 8 (k + 1) = sp - 1 - .ofNat 8 k := by
    rw [BitVec.ofNat_add]
    bv_omega
  simp only [stackBytes, List.range_succ_eq_map, List.map_cons, List.map_map, BitVec.ofNat_eq_ofNat,
    BitVec.sub_zero, List.cons.injEq, true_and]
  exact List.map_congr_left fun k _ => congrArg inStack (hdown k)

theorem inStack_bounds (sp : Byte) : 0x0100 ≤ inStack sp ∧ inStack sp ≤ 0x01FF := by
  revert sp
  decide

theorem bounds_of_mem_stackBytes {sp : Byte} {n : Nat} {a : Word} (h : a ∈ stackBytes sp n) :
    0x0100 ≤ a ∧ a ≤ 0x01FF := by
  obtain ⟨k, -, rfl⟩ := List.mem_map.1 h
  exact inStack_bounds _

theorem inStack_notMem_stackBytes (sp : Byte) {n : Nat} (h : n < 256) :
    inStack sp ∉ stackBytes (sp - 1) n := by
  intro hmem
  obtain ⟨k, hk, he⟩ := List.mem_map.1 hmem
  have hk' : k < n := List.mem_range.1 hk
  have hsp := inStack_inj he
  have hzero : BitVec.ofNat 8 (k + 1) = 0 := by
    rw [BitVec.ofNat_add]
    bv_omega
  have := congrArg BitVec.toNat hzero
  simp at this
  omega

end Registers

open Registers

theorem Operation.sp_consume (op : Operation) (r : Registers) (v : Byte) :
    (op.consume r v).sp = r.sp := by
  cases op with
  | read op => cases op <;> rfl
  | _ => rfl

namespace MicroOp

def pushes : MicroOp → Bool
  | pushHigh | pushLow | pushStatus _ | pushValue => true
  | _ => false

def pulls : MicroOp → Bool
  | pullValue | pullStatus | pullLow | pullHigh | pullJump => true
  | _ => false

/-- Micro-ops one after the other, each with the instruction that it serves: their transfers,
each with its byte, and what they leave. -/
def actEach : List (MicroOp × Instruction) → State × Memory →
    List (Transfer × Byte) × (State × Memory)
  | [], p => ([], p)
  | (op, i) :: ops, p =>
    let s := p.1.withInstruction i
    let t := op.transfer s
    let rest := actEach ops (op.act (s, p.2))
    ((t, (p.2.exchange t).1) :: rest.1, rest.2)

theorem actEach_append (xs ys : List (MicroOp × Instruction)) (p : State × Memory) :
    actEach (xs ++ ys) p =
      let first := actEach xs p
      let second := actEach ys first.2
      (first.1 ++ second.1, second.2) := by
  induction xs generalizing p with
  | nil => rfl
  | cons x xs ih =>
    simp only [List.cons_append, actEach, ih]

variable {op : MicroOp} {ram : Memory}

theorem actEach_of_pushes (h : op.pushes = true) (i : Instruction)
    (ops : List (MicroOp × Instruction)) (s : State) (ram : Memory) :
    let a := inStack s.regs.sp
    ∃ v, actEach ((op, i) :: ops) (s, ram) =
      let rest := actEach ops ((s.withInstruction i).dropStack, ram.poke a v)
      ((.write a v, v) :: rest.1, rest.2) := by
  cases op with
  | pushHigh | pushLow | pushStatus _ | pushValue => exact ⟨_, rfl⟩
  | _ => cases h

theorem actEach_of_pulls (h : op.pulls = true) (i : Instruction) (p : State × Memory) :
    let a := inStack (p.1.regs.sp + 1)
    ∃ t : State, actEach [(op, i)] p = ([(.read a, p.2.peek a)], (t, p.2)) ∧
      t.regs.sp = p.1.regs.sp + 1 := by
  cases op with
  | pullStatus | pullLow | pullHigh | pullJump => exact ⟨_, rfl, rfl⟩
  | pullValue => exact ⟨_, rfl, Operation.sp_consume _ _ _⟩
  | _ => cases h

theorem writes_of_mem_actEach {w : Bool} {ops : List (MicroOp × Instruction)}
    (h : ∀ x ∈ ops, x.1.writes = w) (p : State × Memory) :
    ∀ y ∈ (actEach ops p).1, y.1.writes = w := by
  induction ops generalizing p with
  | nil => exact List.forall_mem_nil _
  | cons x ops ih =>
    obtain ⟨hx, hops⟩ := List.forall_mem_cons.1 h
    exact List.forall_mem_cons.2 ⟨(writes_transfer _ _).trans hx, ih hops _⟩

theorem writes_of_pushes (h : op.pushes = true) : op.writes = true := by
  cases op <;> first | rfl | cases h

theorem writes_of_pulls (h : op.pulls = true) : op.writes = false := by
  cases op <;> first | rfl | cases h

theorem not_passedOver_of_stack (h : op.pushes = true ∨ op.pulls = true) (s : State) :
    op.passedOver s = false := by
  cases op <;> first | rfl | simp [pushes, pulls] at h

theorem actEach_pulls_of_pushes (hf : ram.Full) (s : State) {xs ys : List (MicroOp × Instruction)}
    (hx : ∀ x ∈ xs, x.1.pushes = true) (hy : ∀ y ∈ ys, y.1.pulls = true)
    (hlen : xs.length = ys.length) (hn : xs.length ≤ 256) :
    let first := actEach xs (s, ram)
    let second := actEach ys first.2
    let stack := stackBytes s.regs.sp xs.length
    first.1.map (·.1.address) = stack ∧
      second.1.map (fun x => (x.1.address, x.2)) =
        (first.1.map fun x => (x.1.address, x.2)).reverse ∧
      second.2.1.regs.sp = s.regs.sp ∧ ∀ a ∉ stack, second.2.2.peek a = ram.peek a := by
  induction xs generalizing s ram ys with
  | nil =>
    cases List.length_eq_zero_iff.1 hlen.symm
    exact ⟨rfl, rfl, rfl, fun _ _ => rfl⟩
  | cons x xs ih =>
    have hne : ys ≠ [] := List.ne_nil_of_length_eq_add_one hlen.symm
    -- the last pull answers the first push, and what lies between works below its byte
    obtain ⟨zs, z, rfl⟩ : ∃ zs z, ys = zs ++ [z] :=
      ⟨ys.dropLast, ys.getLast hne, (List.dropLast_concat_getLast hne).symm⟩
    obtain ⟨op, i⟩ := x
    obtain ⟨op', i'⟩ := z
    obtain ⟨hop, hxs⟩ := List.forall_mem_cons.1 hx
    obtain ⟨hzs, hz⟩ := List.forall_mem_append.1 hy
    have hop' : op'.pulls = true := hz _ List.mem_cons_self
    have hlen' : xs.length = zs.length := by simpa using hlen
    have hn' : xs.length < 256 := hn
    let a := inStack s.regs.sp
    obtain ⟨v, hpush⟩ := actEach_of_pushes hop i xs s ram
    let inner := actEach xs ((s.withInstruction i).dropStack, ram.poke a v)
    let back := actEach zs inner.2
    obtain ⟨haddresses, hbytes, hsp, hkept⟩ :=
      ih (hf.poke a v) (s.withInstruction i).dropStack hxs hzs hlen' (Nat.le_of_lt hn')
    obtain ⟨t, hpull, ht⟩ := actEach_of_pulls hop' i' back.2
    have htop : back.2.1.regs.sp + 1 = s.regs.sp := by
      rw [hsp]
      exact BitVec.sub_add_cancel s.regs.sp 1
    have hpeek : back.2.2.peek a = v := by
      rw [hkept a (inStack_notMem_stackBytes s.regs.sp hn'), hf.peek_poke, if_pos rfl]
    rw [htop, hpeek] at hpull
    have hlast : actEach (zs ++ [(op', i')]) inner.2 =
        (back.1 ++ [(.read a, v)], (t, back.2.2)) := by
      rw [actEach_append]
      change (back.1 ++ (actEach [(op', i')] back.2).1, (actEach [(op', i')] back.2).2) = _
      rw [hpull]
    rw [hpush]
    dsimp only
    rw [hlast, List.length_cons, stackBytes_succ]
    refine ⟨congrArg (a :: ·) haddresses, ?bytes, ht.trans htop, ?kept⟩
    case bytes =>
      rw [List.map_append, hbytes, List.map_cons, List.map_cons, List.reverse_cons]
      rfl
    case kept =>
      intro b hb
      rw [List.mem_cons, not_or] at hb
      obtain ⟨hba, hb'⟩ := hb
      exact (hkept b hb').trans ((hf.peek_poke a b v).trans (if_neg hba))

/-- The stack gives back what it has been given, the last byte first, for as many bytes as it
has: each pull reads what the push that it undoes has written, at the same address. No access
leaves the stack page, the stack pointer ends where it began, and no other byte of the memory
has changed. -/
theorem last_in_first_out (hf : ram.Full) (s : State) {xs ys : List (MicroOp × Instruction)}
    (hx : ∀ x ∈ xs, x.1.pushes = true) (hy : ∀ y ∈ ys, y.1.pulls = true)
    (hlen : xs.length = ys.length) (hn : xs.length ≤ 256) :
    let first := actEach xs (s, ram)
    let second := actEach ys first.2
    let stack := stackBytes s.regs.sp xs.length
    (∀ x ∈ xs ++ ys, ∀ t, x.1.passedOver t = false) ∧
    (∀ x ∈ first.1, x.1.writes = true) ∧ (∀ x ∈ second.1, x.1.writes = false) ∧
    second.1.map (·.2) = (first.1.map (·.2)).reverse ∧
    first.1.map (·.1.address) = stack ∧ second.1.map (·.1.address) = stack.reverse ∧
    (∀ a ∈ stack, 0x0100 ≤ a ∧ a ≤ 0x01FF) ∧
    second.2.1.regs.sp = s.regs.sp ∧ ∀ a ∉ stack, second.2.2.peek a = ram.peek a := by
  intro first second stack
  obtain ⟨haddresses, hbytes, hsp, hkept⟩ := actEach_pulls_of_pushes hf s hx hy hlen hn
  have hread : second.1.map (·.2) = (first.1.map (·.2)).reverse := by
    have h := congrArg (List.map Prod.snd) hbytes
    rw [List.map_reverse, List.map_map, List.map_map] at h
    exact h
  have hback : second.1.map (·.1.address) = stack.reverse := by
    have h := congrArg (List.map Prod.fst) hbytes
    rw [List.map_reverse, List.map_map, List.map_map] at h
    exact h.trans (congrArg List.reverse haddresses)
  refine ⟨?passed, ?written, ?read, hread, haddresses, hback,
    fun a ha => bounds_of_mem_stackBytes ha, hsp, hkept⟩
  case passed =>
    intro x hmem
    apply not_passedOver_of_stack
    exact (List.mem_append.1 hmem).imp (hx x) (hy x)
  case written => exact writes_of_mem_actEach (fun x h => writes_of_pushes (hx x h)) _
  case read => exact writes_of_mem_actEach (fun y h => writes_of_pulls (hy y h)) _

/-- The high byte of the program counter and a status, pushed over the bottom of the page, are
pulled the other way round, and each as something else. -/
theorem last_in_first_out_wrapped :
    let r : Registers := { Registers.powerOn with sp := 0x00, pc := 0x1234 }
    let s : State := { State.powerOn with regs := r }
    let i : Instruction := .decode .sized 0x68
    let xs : List (MicroOp × Instruction) := [(.pushHigh, i), (.pushStatus true, i)]
    let ys : List (MicroOp × Instruction) := [(.pullValue, i), (.pullStatus, i)]
    let first := actEach xs (s, .blank)
    let second := actEach ys first.2
    (∀ x ∈ xs, x.1.pushes = true) ∧ (∀ y ∈ ys, y.1.pulls = true) ∧
    first.1.map (·.1.address) = [0x0100, 0x01FF] ∧ second.1.map (·.1.address) = [0x01FF, 0x0100] ∧
    first.1.map (·.2) = [0x12, 0x34] ∧ second.1.map (·.2) = [0x34, 0x12] ∧
    second.2.1.regs.sp = 0x00 ∧ second.2.2.peek 0x0200 = 0 := by
  intro r s i xs ys first second
  have hx : ∀ x ∈ xs, x.1.pushes = true := by decide
  have hy : ∀ y ∈ ys, y.1.pulls = true := by decide
  obtain ⟨-, -, -, hread, haddresses, hback, -, hsp, hkept⟩ :=
    last_in_first_out Memory.full_blank s hx hy rfl (by decide)
  have hwritten : first.1.map (·.2) = [0x12, 0x34] := by decide
  rw [hwritten] at hread
  refine ⟨hx, hy, haddresses.trans (by decide), hback.trans (by decide), hwritten, hread, hsp, ?_⟩
  exact (hkept 0x0200 (by decide)).trans (Memory.peek_blank _)

end MicroOp

end Cmos6502
