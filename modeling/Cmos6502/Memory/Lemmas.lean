import Cmos6502.Memory.Basic

namespace Cmos6502.Memory

theorem contains_iff (m : Memory) (a : Word) :
    m.contains a = true ↔
      m.base.toNat ≤ a.toNat ∧ a.toNat < m.base.toNat + m.length := by
  unfold contains offset?
  split <;> simp_all

theorem base_poke (m : Memory) (a : Word) (v : Byte) : (m.poke a v).base = m.base := by
  unfold poke
  split <;> rfl

theorem length_poke (m : Memory) (a : Word) (v : Byte) : (m.poke a v).length = m.length := by
  unfold poke
  split <;> rfl

theorem writable_poke (m : Memory) (a : Word) (v : Byte) :
    (m.poke a v).writable = m.writable := by
  unfold poke
  split <;> rfl

theorem contains_poke (m : Memory) (a b : Word) (v : Byte) :
    (m.poke a v).contains b = m.contains b := by
  rw [Bool.eq_iff_iff, contains_iff, contains_iff, base_poke, length_poke]

theorem peek_of_not_contains {m : Memory} {a : Word} (h : m.contains a = false) :
    m.peek a = 0xFF := by
  unfold contains at h
  unfold peek
  split <;> simp_all

theorem poke_of_not_contains {m : Memory} {a : Word} (v : Byte) (h : m.contains a = false) :
    m.poke a v = m := by
  unfold contains at h
  unfold poke
  split <;> simp_all

theorem offset?_eq_some {m : Memory} {a : Word} {i : Fin m.length} (h : m.offset? a = some i) :
    a.toNat = m.base.toNat + i := by
  unfold offset? at h
  split at h
  · cases h
    simp only
    omega
  · contradiction

theorem offset?_inj {m : Memory} {a b : Word} {i : Fin m.length} (ha : m.offset? a = some i)
    (hb : m.offset? b = some i) : a = b :=
  BitVec.eq_of_toNat_eq ((offset?_eq_some ha).trans (offset?_eq_some hb).symm)

theorem poke_of_offset {m : Memory} {a : Word} {i : Fin m.length} (h : m.offset? a = some i)
    (v : Byte) : m.poke a v = { m with bytes := m.bytes.set i v i.isLt } := by
  simp [poke, h]

theorem peek_set (m : Memory) (i : Fin m.length) (v : Byte) {b : Word} {j : Fin m.length}
    (h : m.offset? b = some j) :
    peek { m with bytes := m.bytes.set i v i.isLt } b = if i = j then v else m.peek b := by
  have ho : offset? { m with bytes := m.bytes.set i v i.isLt } b = some j := h
  simp [peek, h, ho, Vector.getElem_set, Fin.ext_iff]

theorem peek_poke (m : Memory) (a b : Word) (v : Byte) :
    (m.poke a v).peek b = if b = a ∧ m.contains a then v else m.peek b := by
  cases ha : m.offset? a with
  | none => simp [poke, contains, ha]
  | some i =>
    rw [poke_of_offset ha]
    cases hb : m.offset? b with
    | none =>
      have hne : b ≠ a := fun h => by simp [h, ha] at hb
      have ho : offset? { m with bytes := m.bytes.set i v i.isLt } b = none := hb
      simp [peek, ho, hb, hne]
    | some j =>
      rw [peek_set m i v hb]
      by_cases h : b = a
      · subst h
        simp_all [contains]
      · have hij : i ≠ j := fun e => h (offset?_inj hb (e ▸ ha))
        simp [h, hij, peek, hb]

end Cmos6502.Memory
