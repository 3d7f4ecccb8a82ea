import Cmos6502.Proofs.SharedBus
import Mathlib.Data.List.Pairwise

namespace Cmos6502

namespace Memory

def Apart (r s : Memory) : Prop := ∀ a, r.contains a = true → s.contains a = false

instance : Std.Symm Apart where
  symm r s h a hs := by
    apply Bool.eq_false_iff.2
    intro hr
    rw [h a hr] at hs
    cases hs

theorem apart_of_le {r s : Memory} (h : r.base.toNat + r.length ≤ s.base.toNat) : r.Apart s := by
  intro a hr
  obtain ⟨-, hlt⟩ := (r.contains_iff a).1 hr
  apply Bool.eq_false_iff.2
  intro hs
  obtain ⟨hle, -⟩ := (s.contains_iff a).1 hs
  omega

theorem contains_store (r : Memory) (bus : Bus) (a : Word) :
    (r.store bus).contains a = r.contains a := by
  rw [store]
  split
  · exact r.contains_poke _ _ _
  · rfl

theorem readout_perm {ms ms' : List Memory} (h : ms'.Perm ms) (hd : ms.Pairwise Apart) (a : Word)
    (v : Byte) : readout ms' a v = readout ms a v := by
  apply (h.symm.foldl_eq' ?_ v).symm
  intro r hr s hs v
  by_cases hra : r.contains a = true
  · by_cases hsa : s.contains a = true
    · have hrs : r = s := by
        by_contra hne
        have hnot := hd.forall hr hs hne a hra
        rw [hnot] at hsa
        cases hsa
      rw [hrs]
    · simp [hra, hsa]
  · simp [hra]

/-- Two memories at one address: the byte of the one that is asked last is left. -/
example :
    let r : Memory := ⟨0, 1, #v[0x11], false, by decide, by decide⟩
    let s : Memory := ⟨0, 1, #v[0x22], false, by decide, by decide⟩
    readout [r, s] 0 0 = 0x22 ∧ readout [s, r] 0 0 = 0x11 := by
  decide

end Memory

namespace Computer

theorem chip_respond (ms : List Memory) (bus : Bus) :
    (respond ms bus).chip = ms.map (·.store bus) := by
  cases h : bus.isWrite with
  | true => rw [respond_of_write h]
  | false =>
    rw [respond_of_read h]
    have hid : (Memory.store · bus) = id := by
      funext r
      exact Memory.store_of_read h r
    rw [hid, List.map_id]

theorem bus_respond_perm {ms ms' : List Memory} (h : ms'.Perm ms)
    (hd : ms.Pairwise Memory.Apart) (bus : Bus) :
    (respond ms' bus).bus = (respond ms bus).bus := by
  cases hw : bus.isWrite with
  | true => rw [respond_of_write hw, respond_of_write hw]
  | false => rw [respond_of_read hw, respond_of_read hw, Memory.readout_perm h hd]

/-- The wires as the processor drives them on edge `n`. -/
def driven (m : Computer) (w : Nat → Inputs) (n : Nat) : Bus :=
  ((m.follow w n).cpu.drive ((m.follow w n).bus.withInputs (w n))).2

def kept (m : Computer) (w : Nat → Inputs) : Nat → Memory → Memory
  | 0, r => r
  | n + 1, r => (m.kept w n r).store (m.driven w n)

theorem contains_kept (m : Computer) (w : Nat → Inputs) (n : Nat) (r : Memory) (a : Word) :
    (m.kept w n r).contains a = r.contains a := by
  induction n with
  | zero => rfl
  | succ n ih => exact (Memory.contains_store _ _ a).trans ih

theorem memories_follow (m : Computer) (w : Nat → Inputs) (n : Nat) :
    (m.follow w n).memories = m.memories.map (m.kept w n) := by
  induction n with
  | zero => exact (List.map_id m.memories).symm
  | succ n ih =>
    rw [follow_succ, memories_edge, chip_respond, memories_under, ih, List.map_map]
    rfl

theorem pairwise_apart_follow {m : Computer} (hd : m.memories.Pairwise Memory.Apart)
    (w : Nat → Inputs) (n : Nat) : (m.follow w n).memories.Pairwise Memory.Apart := by
  rw [memories_follow, List.pairwise_map]
  apply hd.imp
  intro r s h a ha
  rw [contains_kept] at ha ⊢
  exact h a ha

structure Reordered (m m' : Computer) : Prop where
  cpu : m'.cpu = m.cpu
  bus : m'.bus = m.bus
  memories : m'.memories.Perm m.memories

theorem Reordered.edge {m m' : Computer} (h : m.Reordered m')
    (hd : m.memories.Pairwise Memory.Apart) (i : Inputs) :
    (m.under i).edge.computer.Reordered (m'.under i).edge.computer := by
  have hdrive : (m'.under i).cpu.drive (m'.under i).bus =
      (m.under i).cpu.drive (m.under i).bus := by
    simp only [cpu_under, bus_under, h.cpu, h.bus]
  have hsettled : (m'.under i).settled = (m.under i).settled := by
    rw [settled, settled, hdrive]
    exact bus_respond_perm h.memories hd _
  constructor
  · rw [cpu_edge, cpu_edge, hsettled, cpu_under, cpu_under, bus_under, bus_under, h.cpu, h.bus]
  · rw [bus_edge, bus_edge, hsettled]
  · rw [memories_edge, memories_edge, hdrive, chip_respond, chip_respond]
    exact h.memories.map _

theorem Reordered.follow {m m' : Computer} (h : m.Reordered m')
    (hd : m.memories.Pairwise Memory.Apart) (w : Nat → Inputs) (n : Nat) :
    (m.follow w n).Reordered (m'.follow w n) := by
  induction n with
  | zero => exact h
  | succ n ih => exact ih.edge (pairwise_apart_follow hd w n) (w n)

theorem Reordered.kept_eq {m m' : Computer} (h : m.Reordered m')
    (hd : m.memories.Pairwise Memory.Apart) (w : Nat → Inputs) (n : Nat) :
    m'.kept w n = m.kept w n := by
  induction n with
  | zero => rfl
  | succ n ih =>
    have hn := h.follow hd w n
    have hdriven : m'.driven w n = m.driven w n := by rw [driven, driven, hn.cpu, hn.bus]
    funext r
    rw [kept, kept, ih, hdriven]

/-- Where no two memories own the same address the order in which they stand behind the
processor does not matter: on every edge the processor and the wires are the same, and
each memory has the same contents wherever it stands. -/
theorem order_irrelevant {m m' : Computer} (hcpu : m'.cpu = m.cpu) (hbus : m'.bus = m.bus)
    (hmem : m'.memories.Perm m.memories) (hd : m.memories.Pairwise Memory.Apart)
    (w : Nat → Inputs) (n : Nat) :
    let e := m.follow w n
    let e' := m'.follow w n
    e'.cpu = e.cpu ∧ e'.bus = e.bus ∧ e'.memories.Perm e.memories ∧
    ∀ i j : Nat, m'.memories[j]? = m.memories[i]? → e'.memories[j]? = e.memories[i]? := by
  intro e e'
  have h : m.Reordered m' := ⟨hcpu, hbus, hmem⟩
  obtain ⟨hcpu', hbus', hmem'⟩ := h.follow hd w n
  refine ⟨hcpu', hbus', hmem', ?_⟩
  intro i j hij
  simp only [e, e', memories_follow, List.getElem?_map, h.kept_eq hd, hij]

/-- `INC $10` in a ROM, with its operand in a RAM of one byte before or behind it. -/
theorem order_irrelevant_increment :
    let rom : Memory := ⟨0x0000, 2, #v[0xE6, 0x10], false, by decide, by decide⟩
    let ram : Memory := ⟨0x0010, 1, #v[0x7F], true, by decide, by decide⟩
    let c := (Cpu.powerOn .standard).startAt .powerOn
    let m : Computer := ⟨(c, [rom, ram]), .quiet, ⟨0⟩⟩
    let m' : Computer := ⟨(c, [ram, rom]), .quiet, ⟨0⟩⟩
    let w : Nat → Inputs := fun _ => .quiet
    (m'.follow w 5).cpu = (m.follow w 5).cpu ∧
    (m'.follow w 5).memories[0]? = (m.follow w 5).memories[1]? ∧
    (m.follow w 5).memories[1]?.map (·.peek 0x0010) = some 0x80 := by
  intro rom ram c m m' w
  have hd : m.memories.Pairwise Memory.Apart := by
    apply List.Pairwise.cons
    · intro s hs
      obtain rfl := List.mem_singleton.1 hs
      exact Memory.apart_of_le (by decide)
    · exact List.pairwise_singleton _ _
  have hcpu : m'.cpu = m.cpu := rfl
  have hbus : m'.bus = m.bus := rfl
  have hswap : m'.memories.Perm m.memories := List.Perm.swap rom ram []
  obtain ⟨hcpu', -, -, hmem⟩ := order_irrelevant hcpu hbus hswap hd w 5
  refine ⟨hcpu', hmem 1 0 rfl, ?_⟩
  decide +kernel

end Computer

end Cmos6502
