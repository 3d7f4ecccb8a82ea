import Cmos6502.Proofs.SharedBus
import Mathlib.Logic.Function.Basic

namespace Cmos6502

theorem Word.add_ofNat_succ (a : Word) (i : Nat) :
    a + .ofNat 16 (i + 1) = a + 1 + .ofNat 16 i := by
  rw [Nat.add_comm, BitVec.ofNat_add, ← BitVec.add_assoc]
  rfl

theorem Word.toNat_add_ofNat {a : Word} {i : Nat} (h : a.toNat + i < 0x10000) :
    (a + .ofNat 16 i).toNat = a.toNat + i := by
  rw [BitVec.toNat_add, BitVec.toNat_ofNat]
  omega

/-- The addresses that a memory answers, and whether the bus can write it. -/
structure Window where
  base : Word
  length : Nat
  writable : Bool
deriving DecidableEq

inductive Command where
  | drive (bus : Bus)
  | latch (bus : Bus)
  | poke (a : Word) (v : Byte)
  | load (a : Word) (image : List Byte)

def placed (a : Word) (image : List Byte) : List (Word × Byte) :=
  image.mapIdx fun i v => (a + .ofNat 16 i, v)

/-- A map of addresses after some stores, the oldest of them first. -/
def replay (f : Word → Byte) (stores : List (Word × Byte)) : Word → Byte :=
  stores.foldl (fun f s => Function.update f s.1 s.2) f

namespace Window

variable (w : Window)

def Fits : Prop := 0 < w.length ∧ w.base.toNat + w.length ≤ 0x10000

def Owns (a : Word) : Prop := w.base.toNat ≤ a.toNat ∧ a.toNat < w.base.toNat + w.length

/-- An image of `n` bytes may go to `a`. -/
def Takes (a : Word) (n : Nat) : Prop := w.Owns a ∧ a.toNat + n ≤ w.base.toNat + w.length

instance : Decidable w.Fits := inferInstanceAs (Decidable (_ ∧ _))

instance (a : Word) : Decidable (w.Owns a) := inferInstanceAs (Decidable (_ ∧ _))

instance (a : Word) (n : Nat) : Decidable (w.Takes a n) := inferInstanceAs (Decidable (_ ∧ _))

/-- What a command stores and where. Only the bus minds write protection, and an image
is taken whole or not at all. -/
def stores : Command → List (Word × Byte)
  | .drive bus =>
    if bus.isWrite ∧ w.writable ∧ w.Owns bus.address then [(bus.address, bus.data)] else []
  | .latch _ => []
  | .poke a v => if w.Owns a then [(a, v)] else []
  | .load a image => if w.Takes a image.length then placed a image else []

theorem Owns.eq_add {w : Window} {a : Word} (h : w.Owns a) :
    a = w.base + .ofNat 16 (a.toNat - w.base.toNat) := by
  have hle : w.base.toNat ≤ a.toNat := h.1
  apply BitVec.eq_of_toNat_eq
  rw [Word.toNat_add_ofNat] <;> omega

theorem Fits.takes {w : Window} (h : w.Fits) : w.Takes w.base w.length :=
  ⟨⟨Nat.le_refl _, Nat.lt_add_of_pos_right h.1⟩, Nat.le_refl _⟩

theorem Takes.owns {w : Window} (hw : w.base.toNat + w.length ≤ 0x10000) {a : Word} {n : Nat}
    (h : w.Takes a n) {i : Nat} (hi : i < n) : w.Owns (a + .ofNat 16 i) := by
  obtain ⟨⟨hbase, -⟩, hend⟩ := h
  have hsum : (a + .ofNat 16 i).toNat = a.toNat + i := Word.toNat_add_ofNat (by omega)
  constructor <;> omega

end Window

theorem replay_append (f : Word → Byte) (xs ys : List (Word × Byte)) :
    replay f (xs ++ ys) = replay (replay f xs) ys :=
  List.foldl_append

theorem placed_cons (a : Word) (v : Byte) (image : List Byte) :
    placed a (v :: image) = (a, v) :: placed (a + 1) image := by
  have hfirst : a + .ofNat 16 0 = a := BitVec.add_zero a
  simp only [placed, List.mapIdx_cons, Word.add_ofNat_succ, hfirst]

theorem replay_of_not_mem {f : Word → Byte} {stores : List (Word × Byte)} {a : Word}
    (h : ∀ s ∈ stores, s.1 ≠ a) : replay f stores a = f a := by
  induction stores generalizing f with
  | nil => rfl
  | cons s rest ih =>
    have hne : a ≠ s.1 := fun he => h s List.mem_cons_self he.symm
    apply (ih fun t ht => h t (List.mem_cons_of_mem s ht)).trans
    exact Function.update_of_ne hne s.2 f

theorem replay_placed (f : Word → Byte) {image : List Byte} (h : image.length ≤ 0x10000)
    (a : Word) {i : Nat} (hi : i < image.length) :
    replay f (placed a image) (a + .ofNat 16 i) = image[i] := by
  induction image generalizing f a i with
  | nil => exact absurd hi (Nat.not_lt_zero i)
  | cons v image ih =>
    rw [placed_cons]
    cases i with
    | zero =>
      -- an image no longer than the address space does not come back to its first byte
      have hlater : ∀ s ∈ placed (a + 1) image, s.1 ≠ a + .ofNat 16 0 := by
        intro s hs
        obtain ⟨j, hj, rfl⟩ := List.mem_mapIdx.1 hs
        simp only [List.length_cons] at h
        bv_omega
      apply (replay_of_not_mem hlater).trans
      simp
    | succ i =>
      rw [Word.add_ofNat_succ]
      apply ih
      exact Nat.le_of_succ_le h

namespace Memory

variable (m : Memory)

def window : Window := ⟨m.base, m.length, m.writable⟩

theorem contains_iff_owns (a : Word) : m.contains a = true ↔ m.window.Owns a :=
  m.contains_iff a

/-- A load that fails leaves the memory as it was. -/
def obey : Command → Memory
  | .drive bus => (Chip.drive m bus : Phase Report Memory).chip
  | .latch bus => (Chip.latch m bus : Phase Report Memory).chip
  | .poke a v => m.poke a v
  | .load a image => (m.load a image).toOption.getD m

def obeyAll (cs : List Command) : Memory := cs.foldl obey m

theorem window_poke (a : Word) (v : Byte) : (m.poke a v).window = m.window := by
  rw [window, base_poke, length_poke, writable_poke]
  rfl

theorem window_fill (a : Word) (image : List Byte) : (m.fill a image).window = m.window := by
  induction image generalizing m a with
  | nil => rfl
  | cons v image ih => exact (ih (m.poke a v) (a + 1)).trans (m.window_poke a v)

theorem peek_poke_of_owns {m : Memory} {a : Word} (h : m.window.Owns a) (v : Byte) :
    (m.poke a v).peek = Function.update m.peek a v := by
  funext b
  have hc : m.contains a = true := (m.contains_iff_owns a).2 h
  by_cases hb : b = a <;> simp [peek_poke, hc, hb]

theorem poke_of_not_owns {m : Memory} {a : Word} (h : ¬ m.window.Owns a) (v : Byte) :
    m.poke a v = m := by
  apply poke_of_not_contains
  rwa [Bool.eq_false_iff, Ne, contains_iff_owns]

theorem peek_of_not_owns {m : Memory} {a : Word} (h : ¬ m.window.Owns a) : m.peek a = 0xFF := by
  apply peek_of_not_contains
  rwa [Bool.eq_false_iff, Ne, contains_iff_owns]

theorem peek_fill {m : Memory} {a : Word} {image : List Byte}
    (h : ∀ i < image.length, m.window.Owns (a + .ofNat 16 i)) :
    (m.fill a image).peek = replay m.peek (placed a image) := by
  induction image generalizing m a with
  | nil => rfl
  | cons v image ih =>
    have hfirst : m.window.Owns a := by simpa using h 0 (Nat.succ_pos _)
    have hrest : ∀ i < image.length, (m.poke a v).window.Owns (a + 1 + .ofNat 16 i) := by
      intro i hi
      have hnext := h (i + 1) (Nat.succ_lt_succ hi)
      rwa [Word.add_ofNat_succ, ← m.window_poke a v] at hnext
    rw [placed_cons]
    apply (ih hrest).trans
    rw [peek_poke_of_owns hfirst]
    rfl

theorem load_eq (a : Word) (image : List Byte) :
    m.load a image =
      if m.window.Takes a image.length then .ok (m.fill a image)
      else .error (.outOfRange a image.length) := by
  simp only [load, contains_iff_owns]
  rfl

theorem obey_load (a : Word) (image : List Byte) :
    m.obey (.load a image) = if m.window.Takes a image.length then m.fill a image else m := by
  simp only [obey, load_eq]
  split <;> rfl

theorem window_obey (c : Command) : (m.obey c).window = m.window := by
  cases c with
  | drive bus =>
    change (m.store bus).window = m.window
    rw [store]
    split
    · exact m.window_poke _ _
    · rfl
  | latch bus => rfl
  | poke a v => exact m.window_poke a v
  | load a image =>
    rw [obey_load]
    split
    · exact m.window_fill a image
    · rfl

theorem peek_obey (c : Command) : (m.obey c).peek = replay m.peek (m.window.stores c) := by
  cases c with
  | drive bus =>
    change (m.store bus).peek = _
    by_cases hw : (bus.isWrite && m.writable) = true
    · obtain ⟨hbus, hon⟩ := Bool.and_eq_true_iff.1 hw
      have hwindow : m.window.writable = true := hon
      rw [store, if_pos hw]
      by_cases ho : m.window.Owns bus.address
      · simp [Window.stores, replay, hbus, hwindow, ho, peek_poke_of_owns ho]
      · simp [Window.stores, replay, ho, poke_of_not_owns ho]
    · have hnone : ¬ (bus.isWrite ∧ m.window.writable ∧ m.window.Owns bus.address) := by
        rintro ⟨hbus, hon, -⟩
        exact hw (Bool.and_eq_true_iff.2 ⟨hbus, hon⟩)
      rw [store, if_neg hw, Window.stores, if_neg hnone]
      rfl
  | latch bus => rfl
  | poke a v =>
    by_cases ho : m.window.Owns a
    · simp [obey, Window.stores, replay, ho, peek_poke_of_owns ho]
    · simp [obey, Window.stores, replay, ho, poke_of_not_owns ho]
  | load a image =>
    rw [obey_load]
    by_cases ht : m.window.Takes a image.length
    · rw [if_pos ht, Window.stores, if_pos ht]
      apply peek_fill
      intro i hi
      exact ht.owns m.fits hi
    · rw [if_neg ht, Window.stores, if_neg ht]
      rfl

theorem window_obeyAll (cs : List Command) : (m.obeyAll cs).window = m.window := by
  induction cs generalizing m with
  | nil => rfl
  | cons c cs ih => exact (ih (m.obey c)).trans (m.window_obey c)

theorem peek_obeyAll (cs : List Command) :
    (m.obeyAll cs).peek = replay m.peek (cs.flatMap m.window.stores) := by
  induction cs generalizing m with
  | nil => rfl
  | cons c cs ih =>
    rw [List.flatMap_cons, replay_append, ← peek_obey, ← window_obey m c]
    exact ih (m.obey c)

theorem bus_drive (bus : Bus) :
    (Chip.drive m bus : Phase Report Memory).bus =
      if bus.isWrite = false ∧ m.window.Owns bus.address then bus.withData (m.peek bus.address)
      else bus := by
  change m.answer bus = _
  rw [answer]
  simp only [Bool.and_eq_true, Bool.not_eq_true', contains_iff_owns]
  rfl

end Memory

inductive Plan where
  | ram (base : Word) (length : Nat)
  | rom (base : Word) (image : List Byte)

namespace Plan

def build : Plan → Except MemoryError Memory
  | ram base length => Memory.ram base length
  | rom base image => Memory.rom base image

def window : Plan → Window
  | ram base length => ⟨base, length, true⟩
  | rom base image => ⟨base, image.length, false⟩

/-- What a new memory holds: zeroes or its image, and nothing where it does not
answer. -/
def initial (p : Plan) (a : Word) : Byte :=
  if p.window.Owns a then
    match p with
    | ram _ _ => 0
    | rom base image => image.getD (a.toNat - base.toNat) 0
  else 0xFF

theorem initial_of_not_owns {p : Plan} {a : Word} (h : ¬ p.window.Owns a) :
    p.initial a = 0xFF :=
  if_neg h

theorem ram_eq_ok {base : Word} {length : Nat} (h : (ram base length).window.Fits) :
    ∃ m, Memory.ram base length = .ok m ∧ m.window = (ram base length).window ∧
      m.peek = (ram base length).initial := by
  obtain ⟨hpos, hfits⟩ := h
  simp only [window] at hpos hfits
  rw [Memory.ram, dif_neg hpos.ne', dif_neg hfits.not_gt]
  refine ⟨_, rfl, rfl, ?_⟩
  funext a
  by_cases ho : (ram base length).window.Owns a
  · have hoffset : Memory.offset? ⟨base, length, .replicate length 0, true, hpos, hfits⟩ a =
        some ⟨a.toNat - base.toNat, Nat.sub_lt_left_of_lt_add ho.1 ho.2⟩ := dif_pos ho
    simp only [initial, if_pos ho, Memory.peek, hoffset]
    exact Vector.getElem_replicate _
  · rw [initial_of_not_owns ho]
    exact Memory.peek_of_not_owns ho

theorem replay_image {f : Word → Byte} {base : Word} {image : List Byte}
    (h : (rom base image).window.Fits) (hf : ∀ a, ¬ (rom base image).window.Owns a → f a = 0xFF) :
    replay f (placed base image) = (rom base image).initial := by
  funext a
  by_cases ho : (rom base image).window.Owns a
  · have hlt : a.toNat - base.toNat < image.length := Nat.sub_lt_left_of_lt_add ho.1 ho.2
    have hlen : image.length ≤ 0x10000 := (Nat.le_add_left _ _).trans h.2
    calc replay f (placed base image) a
      _ = replay f (placed base image) (base + .ofNat 16 (a.toNat - base.toNat)) :=
        congrArg _ ho.eq_add
      _ = image[a.toNat - base.toNat] := replay_placed f hlen base hlt
      _ = (rom base image).initial a := by simp [initial, ho, hlt]
  · have hnot : ∀ s ∈ placed base image, s.1 ≠ a := by
      rintro s hs rfl
      obtain ⟨i, hi, rfl⟩ := List.mem_mapIdx.1 hs
      exact ho (h.takes.owns h.2 hi)
    rw [replay_of_not_mem hnot, hf a ho, initial_of_not_owns ho]

theorem rom_eq_ok {base : Word} {image : List Byte} (h : (rom base image).window.Fits) :
    ∃ m, Memory.rom base image = .ok m ∧ m.window = (rom base image).window ∧
      m.peek = (rom base image).initial := by
  obtain ⟨blank, hblank, hwindow, hpeek⟩ := ram_eq_ok h
  have htakes : blank.window.Takes base image.length := by
    rw [hwindow]
    exact h.takes
  have hfill : (blank.fill base image).peek = replay blank.peek (placed base image) := by
    apply Memory.peek_fill
    intro i hi
    exact htakes.owns blank.fits hi
  refine ⟨{ blank.fill base image with writable := false }, ?_, ?_, ?_⟩
  · rw [Memory.rom, hblank]
    rfl
  · have hfilled := blank.window_fill base image
    rw [hwindow] at hfilled
    exact congrArg (fun w : Window => { w with writable := false }) hfilled
  · have hempty (a : Word) (ha : ¬ (rom base image).window.Owns a) : blank.peek a = 0xFF := by
      apply Memory.peek_of_not_owns
      rw [hwindow]
      exact ha
    funext a
    rw [Memory.peek_readOnly, hfill, replay_image h hempty]

theorem build_eq_ok {p : Plan} (h : p.window.Fits) :
    ∃ m, p.build = .ok m ∧ m.window = p.window ∧ m.peek = p.initial := by
  cases p with
  | ram base length => exact ram_eq_ok h
  | rom base image => exact rom_eq_ok h

theorem fits_of_ram {base : Word} {length : Nat} {m : Memory}
    (h : Memory.ram base length = .ok m) : (ram base length).window.Fits := by
  rw [Memory.ram] at h
  split at h
  · cases h
  · next hne =>
    split at h
    · cases h
    · next hle => exact ⟨Nat.pos_of_ne_zero hne, Nat.le_of_not_lt hle⟩

theorem fits_of_build {p : Plan} {m : Memory} (h : p.build = .ok m) : p.window.Fits := by
  cases p with
  | ram base length => exact fits_of_ram h
  | rom base image =>
    rw [build, Memory.rom] at h
    cases hram : Memory.ram base image.length with
    | error e =>
      rw [hram] at h
      cases h
    | ok blank => exact fits_of_ram hram

end Plan

/-- A memory is a map of addresses to bytes. It can be made where its window is not empty
and fits. Then, whatever is done to it, each address of the window holds the byte that
was stored there last, or the one that it had at first, and no other address answers; a
load is taken exactly where it fits, and on the bus a memory shows itself to reads alone. -/
theorem holds_what_was_stored (p : Plan) :
    ((∃ m, p.build = .ok m) ↔ p.window.Fits) ∧
    ∀ m, p.build = .ok m → ∀ cs : List Command,
      let m' := m.obeyAll cs
      m'.peek = replay p.initial (cs.flatMap p.window.stores) ∧
      (∀ a, ¬ p.window.Owns a → m'.peek a = 0xFF) ∧
      (∀ a image, m'.load a image =
        if p.window.Takes a image.length then .ok (m'.obey (.load a image))
        else .error (.outOfRange a image.length)) ∧
      ∀ bus, (Chip.drive m' bus : Phase Report Memory).bus =
        if bus.isWrite = false ∧ p.window.Owns bus.address
        then bus.withData (m'.peek bus.address) else bus := by
  constructor
  · constructor
    · rintro ⟨m, hm⟩
      exact Plan.fits_of_build hm
    · intro h
      obtain ⟨m, hm, -⟩ := Plan.build_eq_ok h
      exact ⟨m, hm⟩
  · intro m hm cs m'
    obtain ⟨m₀, hm₀, hwindow, hpeek⟩ := Plan.build_eq_ok (Plan.fits_of_build hm)
    obtain rfl : m₀ = m := Except.ok.inj (hm₀.symm.trans hm)
    have hwindow' : m'.window = p.window := (m₀.window_obeyAll cs).trans hwindow
    rw [← hwindow']
    refine ⟨?_, ?_, ?_, m'.bus_drive⟩
    · rw [m₀.peek_obeyAll cs, hpeek, hwindow', hwindow]
    · intro a ha
      exact Memory.peek_of_not_owns ha
    · intro a image
      rw [m'.load_eq, m'.obey_load]
      split <;> rfl

/-- A ROM of the last two addresses: a write cycle and a load of one byte too many change
nothing of it, a load that just fits does. -/
theorem holds_what_was_stored_at_the_top :
    let p : Plan := .rom 0xFFFE [0x11, 0x22]
    let write : Bus := { Bus.quiet with address := 0xFFFE, data := 0x99, rw := .held }
    let cs : List Command :=
      [.drive write, .load 0xFFFF [0x33, 0x44], .poke 0x0000 0x55, .load 0xFFFF [0x66]]
    ∃ m, p.build = .ok m ∧ (m.obeyAll cs).peek 0xFFFE = 0x11 ∧ (m.obeyAll cs).peek 0xFFFF = 0x66 ∧
      (m.obeyAll cs).peek 0x0000 = 0xFF ∧
      (m.obeyAll cs).load 0xFFFF [0x33, 0x44] = .error (.outOfRange 0xFFFF 2) := by
  intro p write cs
  obtain ⟨hmade, hheld⟩ := holds_what_was_stored p
  obtain ⟨m, hm⟩ := hmade.2 (by decide)
  obtain ⟨hpeek, hoff, hload, -⟩ := hheld m hm cs
  refine ⟨m, hm, ?_, ?_, hoff 0x0000 (by decide), ?_⟩
  · rw [hpeek]
    decide
  · rw [hpeek]
    decide
  · rw [hload, if_neg (by decide)]
    rfl

end Cmos6502
