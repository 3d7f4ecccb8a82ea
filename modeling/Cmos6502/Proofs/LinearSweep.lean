import Cmos6502.Disassembly
import Mathlib.Data.List.GetD

namespace Cmos6502

def Piece.reach (m : Mode) : Piece → Nat
  | text _ => 0
  | byte => 2
  | word => 3
  | target => if m = .zeroPageRelative then 3 else 2

theorem Mode.reach_le_length {m : Mode} {p : Piece} (h : p ∈ m.format) : p.reach m ≤ m.length := by
  revert p
  cases m with
  | memory form use =>
    cases form <;>
      simp [format, Form.format, Piece.reach, length, operandSize, Form.operandSize]
  | _ => simp [format, Piece.reach, length, operandSize]

namespace Disassembly

section Bytes

variable (policy : Policy) (code : List Byte)

def modeOf : Mode := (Instruction.decode policy (byteAt code 0)).mode

def Whole : Prop := code.length = (modeOf policy code).length

instance : Decidable (Whole policy code) := inferInstanceAs (Decidable (_ = _))

/-- An instruction with zeros in the places of the bytes that it lacks. -/
def completed : List Byte :=
  code ++ List.replicate ((modeOf policy code).length - code.length) 0

end Bytes

variable {policy : Policy} {code rest a b : List Byte}

theorem byteAt_append_left {k : Nat} (h : k < code.length) :
    byteAt (code ++ rest) k = byteAt code k :=
  List.getD_append code rest 0 k h

theorem byteAt_completed (k : Nat) : byteAt (completed policy code) k = byteAt code k := by
  by_cases h : k < code.length
  · exact byteAt_append_left h
  · have hk : code.length ≤ k := Nat.le_of_not_lt h
    rw [byteAt, byteAt, List.getD_eq_default _ _ hk, completed, List.getD_append_right _ _ _ _ hk,
      List.getD_eq_getElem?_getD, List.getElem?_getD_replicate_default_eq]

theorem ofBytes_length (pc : Word) : (ofBytes policy code pc).length = (modeOf policy code).length :=
  rfl

theorem Whole.length_pos (h : Whole policy code) : 0 < code.length := by
  rw [h, ← ofBytes_length 0]
  exact Disassembly.length_pos policy code 0

theorem renderPiece_congr {p : Piece} {i : Instruction} (pc : Word)
    (h : ∀ k < p.reach i.mode, byteAt a k = byteAt b k) :
    renderPiece a pc i p = renderPiece b pc i p := by
  cases p with
  | text s => rfl
  | byte =>
    have h1 : byteAt a 1 = byteAt b 1 := h 1 (Nat.lt_succ_self 1)
    rw [renderPiece, renderPiece, h1]
  | word =>
    have h1 : byteAt a 1 = byteAt b 1 := h 1 (Nat.lt_add_of_pos_right Nat.two_pos)
    have h2 : byteAt a 2 = byteAt b 2 := h 2 (Nat.lt_succ_self 2)
    rw [renderPiece, renderPiece, h1, h2]
  | target =>
    have hoffset := h (if i.mode = .zeroPageRelative then 2 else 1) (by
      rw [Piece.reach]
      split <;> decide)
    rw [renderPiece, renderPiece, target, target, hoffset]

theorem ofBytes_congr (pc : Word) (h : ∀ k < (modeOf policy a).length, byteAt a k = byteAt b k) :
    ofBytes policy a pc = ofBytes policy b pc := by
  have hopcode : byteAt a 0 = byteAt b 0 := h 0 (Disassembly.length_pos policy a pc)
  have hoperand : operand a pc (.decode policy (byteAt a 0)) =
      operand b pc (.decode policy (byteAt a 0)) := by
    rw [operand, operand]
    apply congrArg String.join
    apply List.map_congr_left
    intro p hp
    apply renderPiece_congr
    intro k hk
    exact h k (Nat.lt_of_lt_of_le hk (Mode.reach_le_length hp))
  rw [ofBytes, ofBytes, ← hopcode]
  simp only [hoperand]

theorem Whole.ofBytes_append (h : Whole policy code) (rest : List Byte) (pc : Word) :
    ofBytes policy (code ++ rest) pc = ofBytes policy code pc := by
  symm
  apply ofBytes_congr
  intro k hk
  rw [← h] at hk
  exact (byteAt_append_left hk).symm

theorem ofBytes_completed (pc : Word) :
    ofBytes policy (completed policy code) pc = ofBytes policy code pc := by
  symm
  apply ofBytes_congr
  intro k _
  exact (byteAt_completed k).symm

theorem whole_completed (h : code.length ≤ (modeOf policy code).length) :
    Whole policy (completed policy code) := by
  have hmode : modeOf policy (completed policy code) = modeOf policy code := by
    rw [modeOf, byteAt_completed]
    rfl
  rw [Whole, hmode, completed, List.length_append, List.length_replicate]
  omega

end Disassembly

open Disassembly

/-- Instructions end to end for as long as there are bytes. -/
def listing (policy : Policy) (bytes : List Byte) (pc : Word) : List Listing :=
  if bytes.isEmpty then [] else sweep policy bytes pc

/-- The bytes of a program lie one after the other. This is where instruction `k` of it
begins. -/
def place (program : List (List Byte)) (origin : Word) (k : Nat) : Word :=
  origin + .ofNat 16 (program.take k).flatten.length

theorem place_succ (code : List Byte) (program : List (List Byte)) (origin : Word) (k : Nat) :
    place (code :: program) origin (k + 1) = place program (origin + .ofNat 16 code.length) k := by
  simp only [place, List.take_succ_cons, List.flatten_cons, List.length_append, BitVec.ofNat_add]
  rw [BitVec.add_assoc]

variable {policy : Policy} {code rest : List Byte}

theorem listing_nil (pc : Word) : listing policy [] pc = [] := rfl

theorem listing_of_ne_nil (h : code ≠ []) (pc : Word) :
    let d := Disassembly.ofBytes policy code pc
    listing policy code pc =
      ⟨pc, d⟩ :: listing policy (code.drop d.length) (pc + .ofNat 16 d.length) := by
  intro d
  have hempty : code.isEmpty = false := by simpa using h
  rw [listing, hempty, if_neg Bool.false_ne_true, sweep, listing]
  by_cases hl : d.length < code.length
  · have hrest : (code.drop d.length).isEmpty = false := by simpa using hl
    rw [dif_pos hl, hrest, if_neg Bool.false_ne_true]
  · have hrest : (code.drop d.length).isEmpty = true := by simpa using hl
    rw [dif_neg hl, hrest, if_pos rfl]

theorem listing_append (h : Whole policy code) (rest : List Byte) (pc : Word) :
    listing policy (code ++ rest) pc =
      ⟨pc, .ofBytes policy code pc⟩ ::
        listing policy rest (pc + .ofNat 16 code.length) := by
  have hne : code ++ rest ≠ [] := List.append_ne_nil_of_left_ne_nil
    (List.ne_nil_of_length_pos h.length_pos) rest
  have hlen : (ofBytes policy code pc).length = code.length := h.symm
  rw [listing_of_ne_nil hne, h.ofBytes_append, hlen, List.drop_left]

theorem listing_of_cut (h : code ≠ []) (hl : code.length ≤ (modeOf policy code).length)
    (pc : Word) :
    listing policy code pc = [⟨pc, .ofBytes policy (completed policy code) pc⟩] := by
  have hdrop : code.drop (ofBytes policy code pc).length = [] := List.drop_eq_nil_of_le hl
  rw [listing_of_ne_nil h, hdrop, listing_nil, ofBytes_completed]

theorem listing_flatten_append {program : List (List Byte)}
    (h : ∀ code ∈ program, Whole policy code) (rest : List Byte) (origin : Word) :
    listing policy (program.flatten ++ rest) origin =
      (program.mapIdx fun k code =>
        ⟨place program origin k, .ofBytes policy code (place program origin k)⟩) ++
        listing policy rest (place program origin program.length) := by
  induction program generalizing origin with
  | nil => simp [place]
  | cons code program ih =>
    have hzero : place (code :: program) origin 0 = origin := by simp [place]
    have hrest := ih (fun c hc => h c (List.mem_cons_of_mem code hc))
      (origin + .ofNat 16 code.length)
    rw [List.flatten_cons, List.append_assoc, listing_append (h code List.mem_cons_self), hrest,
      List.mapIdx_cons, List.length_cons, hzero]
    simp only [place_succ, List.cons_append]

/-- Swept from end to end, a program is listed instruction by instruction: each has one
entry, at the sum of the lengths before it, which is that of its own bytes alone. When
the bytes end within an instruction its entry is that of the instruction completed with
zeros, and the last. -/
theorem listing_keeps_alignment {program : List (List Byte)}
    (h : ∀ code ∈ program, Whole policy code) (origin : Word) :
    let entry (k : Nat) (code : List Byte) : Listing :=
      ⟨place program origin k, .ofBytes policy code (place program origin k)⟩
    listing policy program.flatten origin = program.mapIdx entry ∧
    (program ≠ [] → sweep policy program.flatten origin = program.mapIdx entry) ∧
    ∀ cut, cut ≠ [] → cut.length < (modeOf policy cut).length →
      Whole policy (completed policy cut) ∧
      sweep policy (program.flatten ++ cut) origin =
        program.mapIdx entry ++ [entry program.length (completed policy cut)] := by
  intro entry
  have hall (rest : List Byte) := listing_flatten_append h rest origin
  have hsweep {bytes : List Byte} (hne : bytes ≠ []) :
      sweep policy bytes origin = listing policy bytes origin := by
    rw [listing, if_neg (by simpa using hne)]
  have hwhole : listing policy program.flatten origin = program.mapIdx entry := by
    have h0 := hall []
    rwa [listing_nil, List.append_nil, List.append_nil] at h0
  refine ⟨hwhole, fun hne => ?_, fun cut hne hl => ⟨whole_completed (Nat.le_of_lt hl), ?_⟩⟩
  · obtain ⟨code, program', rfl⟩ := List.exists_cons_of_ne_nil hne
    have hcode : code ≠ [] := List.ne_nil_of_length_pos (h code List.mem_cons_self).length_pos
    exact (hsweep (List.append_ne_nil_of_left_ne_nil hcode _)).trans hwhole
  · rw [hsweep (List.append_ne_nil_of_right_ne_nil _ hne), hall cut, listing_of_cut hne (Nat.le_of_lt hl)]

/-- An opcode that the map leaves open, a bit branch over the top of the address
space and a load that lacks its last byte. -/
theorem listing_keeps_alignment_wrapped :
    let program : List (List Byte) := [[0xDC, 0xA9, 0x42], [0x0F, 0x10, 0x02]]
    let cut : List Byte := [0xAD, 0x34]
    (∀ code ∈ program, Whole .sized code) ∧ Whole .sized [0xAD, 0x34, 0x00] ∧
    sweep .sized (program.flatten ++ cut) 0xFFFB =
      [⟨0xFFFB, ⟨"NOP $42A9", 3⟩⟩, ⟨0xFFFE, ⟨"BBR0 $10,$0003", 3⟩⟩, ⟨0x0001, ⟨"LDA $0034", 3⟩⟩] := by
  intro program cut
  have hp : ∀ code ∈ program, Whole .sized code := by decide
  obtain ⟨-, -, hcut⟩ := listing_keeps_alignment hp 0xFFFB
  obtain ⟨hw, hs⟩ := hcut cut (by decide) (by decide)
  have hcompleted : completed .sized cut = [0xAD, 0x34, 0x00] := by decide
  rw [hcompleted] at hw hs
  refine ⟨hp, hw, hs.trans ?_⟩
  decide

end Cmos6502
