import Cmos6502.Memory.Lemmas
import Cmos6502.Proofs.Waveform

namespace Cmos6502

def Bus.withData (bus : Bus) (v : Byte) : Bus := { bus with data := v }

namespace Memory

theorem poke_poke (m : Memory) (a : Word) (v w : Byte) : (m.poke a v).poke a w = m.poke a w := by
  cases ha : m.offset? a with
  | none =>
    have hp (x : Byte) : m.poke a x = m := by simp [poke, ha]
    rw [hp v]
  | some i =>
    have ho : offset? { m with bytes := m.bytes.set i v i.isLt } a = some i := ha
    rw [poke_of_offset ha, poke_of_offset ha, poke_of_offset ho]
    simp only [Vector.set_set]

theorem writable_store (m : Memory) (bus : Bus) : (m.store bus).writable = m.writable := by
  rw [store]
  split
  · exact writable_poke m _ _
  · rfl

theorem length_store (m : Memory) (bus : Bus) : (m.store bus).length = m.length := by
  rw [store]
  split
  · exact length_poke m _ _
  · rfl

theorem peek_readOnly (m : Memory) (a : Word) :
    peek { m with writable := false } a = m.peek a := by
  cases h : m.offset? a with
  | none =>
    have ho : offset? { m with writable := false } a = none := h
    simp only [peek, h, ho]
  | some i =>
    have ho : offset? { m with writable := false } a = some i := h
    simp only [peek, h, ho]

theorem store_of_readOnly {m : Memory} (h : m.writable = false) (bus : Bus) :
    m.store bus = m := by
  rw [store, h, Bool.and_false, if_neg Bool.false_ne_true]

theorem store_of_read {bus : Bus} (h : bus.isWrite = false) (m : Memory) : m.store bus = m := by
  rw [store, h, Bool.false_and, if_neg Bool.false_ne_true]

theorem store_store (m : Memory) (bus : Bus) : (m.store bus).store bus = m.store bus := by
  cases hw : bus.isWrite && m.writable with
  | false => rw [store, writable_store, hw, if_neg Bool.false_ne_true]
  | true =>
    rw [store, writable_store, hw, if_pos rfl, store, hw, if_pos rfl, poke_poke]

theorem answer_of_write {bus : Bus} (h : bus.isWrite = true) (m : Memory) :
    m.answer bus = bus := by
  rw [answer, h, Bool.not_true, Bool.false_and, if_neg Bool.false_ne_true]

theorem answer_of_read {bus : Bus} (h : bus.isWrite = false) (m : Memory) :
    m.answer bus =
      bus.withData (if m.contains bus.address then m.peek bus.address else bus.data) := by
  rw [answer, h, Bool.not_false, Bool.true_and]
  split <;> rfl

/-- The byte on the wires when a read has gone past all memories: the last that
owns the address has put its own there. -/
def readout (ms : List Memory) (a : Word) (floating : Byte) : Byte :=
  ms.foldl (fun v m => if m.contains a then m.peek a else v) floating

theorem readout_cons (m : Memory) (ms : List Memory) (a : Word) (v : Byte) :
    readout (m :: ms) a v = readout ms a (if m.contains a then m.peek a else v) := rfl

theorem readout_cases (ms : List Memory) (a : Word) :
    (∀ v, readout ms a v = v) ∨ ∃ w, ∀ v, readout ms a v = w := by
  induction ms with
  | nil => exact .inl fun v => rfl
  | cons m ms ih =>
    obtain hkeep | ⟨w, hw⟩ := ih
    · by_cases hc : m.contains a = true
      · refine .inr ⟨m.peek a, fun v => ?_⟩
        rw [readout_cons, hkeep, if_pos hc]
      · refine .inl fun v => ?_
        rw [readout_cons, hkeep, if_neg hc]
    · exact .inr ⟨w, fun v => hw _⟩

theorem readout_readout (ms : List Memory) (a : Word) (v : Byte) :
    readout ms a (readout ms a v) = readout ms a v := by
  obtain hkeep | ⟨w, hw⟩ := readout_cases ms a
  · exact hkeep _
  · rw [hw, hw]

end Memory

namespace Computer

theorem respond_of_write {bus : Bus} (h : bus.isWrite = true) (ms : List Memory) :
    respond ms bus = ⟨ms.map (·.store bus), bus, []⟩ := by
  induction ms with
  | nil => rfl
  | cons m ms ih => rw [respond_cons, Memory.answer_of_write h, ih, List.map_cons]

theorem respond_of_read {bus : Bus} (h : bus.isWrite = false) (ms : List Memory) :
    respond ms bus = ⟨ms, bus.withData (Memory.readout ms bus.address bus.data), []⟩ := by
  induction ms generalizing bus with
  | nil => rfl
  | cons m ms ih =>
    have hd (v : Byte) : (bus.withData v).isWrite = false := h
    rw [respond_cons, Memory.store_of_read h, Memory.answer_of_read h, ih (hd _)]
    rfl

/-- The memories have nothing left to do for the transfer on the wires. -/
def Answered (ms : List Memory) (bus : Bus) : Prop := respond ms bus = ⟨ms, bus, []⟩

theorem answered_respond (ms : List Memory) (bus : Bus) :
    Answered (respond ms bus).chip (respond ms bus).bus := by
  cases h : bus.isWrite with
  | false =>
    have hd (v : Byte) : (bus.withData v).isWrite = false := h
    rw [respond_of_read h, Answered, respond_of_read (hd _)]
    change Phase.mk ms (bus.withData (Memory.readout ms bus.address
      (Memory.readout ms bus.address bus.data))) [] = _
    rw [Memory.readout_readout]
  | true =>
    have hs : (Memory.store · bus) ∘ (Memory.store · bus) = (Memory.store · bus) := by
      funext m
      exact Memory.store_store m bus
    rw [respond_of_write h, Answered, respond_of_write h, List.map_map, hs]

theorem Answered.congr {ms : List Memory} {bus bus' : Bus} (h : Answered ms bus)
    (ha : bus'.address = bus.address) (hd : bus'.data = bus.data) (hw : bus'.rw = bus.rw) :
    Answered ms bus' := by
  have hi : bus'.isWrite = bus.isWrite := by rw [Bus.isWrite, Bus.isWrite, hw]
  cases hr : bus.isWrite with
  | false =>
    have he := congrArg (fun p => p.bus.data) (h.symm.trans (respond_of_read hr ms))
    have hdata : Memory.readout ms bus'.address bus'.data = bus'.data := by
      rw [ha, hd]
      exact he.symm
    rw [Answered, respond_of_read (hi.trans hr), hdata]
    rfl
  | true =>
    have he : ms = ms.map (·.store bus) :=
      congrArg Phase.chip (h.symm.trans (respond_of_write hr ms))
    have hs : (Memory.store · bus') = (Memory.store · bus) := by
      funext m
      rw [Memory.store, Memory.store, hi, ha, hd]
    rw [Answered, respond_of_write (hi.trans hr), hs, ← he]

theorem memories_follow_single {m : Computer} {ram : Memory} (hm : m.memories = [ram])
    (w : Nat → Inputs) (n : Nat) :
    ∃ ram', (m.follow w n).memories = [ram'] ∧ ram'.length = ram.length ∧
      (ram.writable = false → ram' = ram) := by
  induction n with
  | zero => exact ⟨ram, hm, rfl, fun _ => rfl⟩
  | succ n ih =>
    obtain ⟨ram', hram, hl, hrom⟩ := ih
    let c := (m.follow w n).cpu
    let bus := (c.drive ((m.follow w n).bus.withInputs (w n))).2
    refine ⟨ram'.store bus, ?_, (Memory.length_store ram' bus).trans hl, fun h => ?_⟩
    · rw [follow_succ, memories_edge, memories_under, hram]
      rfl
    · rw [hrom h]
      exact Memory.store_of_readOnly h bus

theorem peek_of_whole {m : Computer} {ram : Memory} (hm : m.memories = [ram])
    (hc : ∀ a, ram.contains a = true) (a : Word) : m.peek a = ram.peek a := by
  simp [peek, hm, hc a]

end Computer

end Cmos6502
