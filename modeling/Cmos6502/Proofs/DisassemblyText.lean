import Cmos6502.Proofs.ControlFlow
import Cmos6502.Proofs.LinearSweep
import Mathlib.Data.List.Nodup

namespace Cmos6502

theorem Byte.hex_inj {b c : Byte} (h : b.hex = c.hex) : b = c := by
  have hbound (b : Byte) : b.toNat < Nat.pow 16 2 := b.isLt
  exact BitVec.eq_of_toNat_eq (hexDigits_inj (hbound b) (hbound c) (String.ofList_injective h))

theorem Word.low_displacement (b : Byte) : Word.low b.displacement = b := by
  revert b
  decide

theorem Word.ofBytes_inj {a b c d : Byte} (h : Word.ofBytes a b = Word.ofBytes c d) :
    a = c ∧ b = d := by
  have hlow := congrArg Word.low h
  have hhigh := congrArg Word.high h
  rw [Word.low_ofBytes, Word.low_ofBytes] at hlow
  rw [Word.high_ofBytes, Word.high_ofBytes] at hhigh
  exact ⟨hlow, hhigh⟩

def maskDigit (c : Char) : Char := if c.isDigit || 'A' ≤ c && c ≤ 'F' then '0' else c

theorem maskDigit_hexDigit {n : Nat} (h : n < 16) : maskDigit (hexDigit n) = '0' := by
  have table : ∀ i < 16, maskDigit (hexDigit i) = '0' := by decide
  exact table n h

theorem map_maskDigit_hexDigits (k n : Nat) :
    (hexDigits k n).map maskDigit = List.replicate k '0' := by
  induction k generalizing n with
  | zero => rfl
  | succ k ih =>
    rw [hexDigits, List.map_append, ih, List.map_singleton,
      maskDigit_hexDigit (Nat.mod_lt n (by decide)), List.replicate_succ']

def Piece.outline : Piece → List Char
  | text s => s.toList.map maskDigit
  | byte => List.replicate 2 '0'
  | word | target => List.replicate 4 '0'

def Piece.shows (m : Mode) : Piece → List Nat
  | text _ => []
  | byte => [1]
  | word => [1, 2]
  | target => [if m = .zeroPageRelative then 2 else 1]

theorem Mode.length_le_three (m : Mode) : m.length ≤ 3 := by
  cases m with
  | memory form use => cases form <;> simp [length, operandSize, Form.operandSize]
  | _ => decide

theorem Mode.exists_shows {m : Mode} (hm : m ≠ .brk) {k : Nat} (hk : 0 < k) (hlt : k < m.length) :
    ∃ p ∈ m.format, k ∈ p.shows m := by
  have hsize : k = 1 ∨ k = 2 := by
    have hle := m.length_le_three
    omega
  cases m with
  | brk => exact absurd rfl hm
  | memory form use =>
    obtain rfl | rfl := hsize <;> cases form <;>
      simp_all [length, operandSize, Form.operandSize, format, Form.format, Piece.shows]
  | _ =>
    obtain rfl | rfl := hsize <;> simp_all [length, operandSize, format, Piece.shows]

theorem Operation.space_notMem_mnemonic (op : Operation) : ' ' ∉ op.mnemonic.toList := by
  cases op with
  | read op => cases op <;> decide
  | write op => cases op <;> decide
  | modify op =>
    cases op with
    | rmb bit | smb bit =>
      revert bit
      decide
    | _ => decide
  | implied op => cases op <;> decide
  | branch op =>
    cases op with
    | bbr bit | bbs bit =>
      revert bit
      decide
    | _ => decide
  | control op => cases op <;> decide

/-- No number comes twice: `Nodup`, as a check that evaluates without a proof for each pair. -/
def distinct : List Nat → Bool
  | [] => true
  | n :: ns => ns.all (fun m => !Nat.beq n m) && distinct ns

theorem nodup_of_distinct {ns : List Nat} (h : distinct ns = true) : ns.Nodup := by
  induction ns with
  | nil => exact .nil
  | cons n ns ih =>
    rw [distinct, Bool.and_eq_true, List.all_eq_true] at h
    refine List.nodup_cons.2 ⟨fun hmem => ?_, ih h.2⟩
    have hn := h.1 n hmem
    rw [Nat.beq_refl] at hn
    cases hn

namespace Instruction

/-- What all texts of an instruction have in common: the mnemonic, and the outline of the
operand after a space. -/
def outline (i : Instruction) : List Char × List Char :=
  (i.operation.mnemonic.toList,
    if i.mode.format.isEmpty then [] else ' ' :: i.mode.format.flatMap Piece.outline)

/-- The characters of the outline as the digits of one number, which the kernel compares at
once. -/
def outlineNumber (i : Instruction) : Nat :=
  (i.outline.1 ++ i.outline.2).foldl (fun n c => 256 * n + c.toNat) 0

/-- Checked on the whole map: a mnemonic never has two forms of operand that look alike. -/
theorem distinct_outlines :
    distinct (((all .sized).filter documented).map outlineNumber) = true := by
  decide +kernel

theorem outline_inj {policy : Policy} {o o' : Byte} (h : (decode policy o).documented = true)
    (h' : (decode policy o').documented = true)
    (he : (decode policy o).outline = (decode policy o').outline) : o = o' := by
  have hsized {o : Byte} (h : (decode policy o).documented = true) :
      decode policy o = decode .sized o := by
    rw [documented, opcode_decode] at h
    obtain ⟨b, hb⟩ := Option.isSome_iff_exists.1 h
    rw [decode_of_bound hb, decode_of_bound hb]
  have hmem {o : Byte} (h : (decode policy o).documented = true) :
      decode .sized o ∈ (all .sized).filter documented := by
    refine List.mem_filter.2 ⟨List.mem_map.2 ⟨o.toNat, List.mem_range.2 o.isLt, ?_⟩, ?_⟩
    · rw [BitVec.ofNat_toNat, BitVec.setWidth_eq]
    · rw [← hsized h]
      exact h
  have hnumber : (decode .sized o).outlineNumber = (decode .sized o').outlineNumber := by
    rw [hsized h, hsized h'] at he
    rw [outlineNumber, outlineNumber, he]
  have hdecode := List.inj_on_of_nodup_map (nodup_of_distinct distinct_outlines) (hmem h)
    (hmem h') hnumber
  rw [← opcode_decode .sized o, hdecode, opcode_decode]

theorem opcode_of_brk (policy : Policy) (o : Byte) :
    (decode policy o).mode = .brk ↔ o = 0x00 := by
  revert o
  cases policy <;> decide

end Instruction

namespace Disassembly

variable (policy : Policy) (bytes : List Byte) (pc : Word) (i : Instruction)

def tail : List Char :=
  if i.mode.format.isEmpty then [] else ' ' :: (operand bytes pc i).toList

theorem toList_text :
    let i := Instruction.decode policy (byteAt bytes 0)
    (ofBytes policy bytes pc).text.toList = i.operation.mnemonic.toList ++ tail bytes pc i := by
  intro i
  rw [tail]
  change (if i.mode.format.isEmpty then i.operation.mnemonic
    else i.operation.mnemonic ++ " " ++ operand bytes pc i).toList = _
  split
  · rw [List.append_nil]
  · rw [String.toList_append, String.toList_append, List.append_assoc]
    rfl

theorem map_maskDigit_renderPiece (p : Piece) :
    (renderPiece bytes pc i p).toList.map maskDigit = p.outline := by
  cases p with
  | text s => rfl
  | byte | word | target =>
    simp only [renderPiece, Byte.hex, Word.hex, String.toList_ofList, map_maskDigit_hexDigits,
      Piece.outline]

theorem map_maskDigit_tail : (tail bytes pc i).map maskDigit = i.outline.2 := by
  have hoperand : (operand bytes pc i).toList.map maskDigit =
      i.mode.format.flatMap Piece.outline := by
    rw [operand, String.toList_join, List.flatMap_map, List.map_flatMap]
    simp only [map_maskDigit_renderPiece]
  have hspace : maskDigit ' ' = ' ' := by decide
  rw [tail, Instruction.outline]
  dsimp only
  split
  · rfl
  · rw [List.map_cons, hoperand, hspace]

theorem takeWhile_text :
    (ofBytes policy bytes pc).text.toList.takeWhile (· != ' ') =
      (Instruction.decode policy (byteAt bytes 0)).operation.mnemonic.toList := by
  have htail (i : Instruction) : (tail bytes pc i).takeWhile (· != ' ') = [] := by
    rw [tail]
    split <;> rfl
  rw [toList_text, List.takeWhile_append_of_pos, htail, List.append_nil]
  intro c hc
  rw [bne_iff_ne]
  rintro rfl
  exact Operation.space_notMem_mnemonic _ hc

variable {policy bytes pc i} {a b : List Byte}

theorem tail_eq_of_text (h : (ofBytes policy a pc).text = (ofBytes policy b pc).text) :
    let i := Instruction.decode policy (byteAt a 0)
    let j := Instruction.decode policy (byteAt b 0)
    i.operation.mnemonic.toList = j.operation.mnemonic.toList ∧ tail a pc i = tail b pc j := by
  intro i j
  have hmnemonic : i.operation.mnemonic.toList = j.operation.mnemonic.toList := by
    rw [← takeWhile_text policy a pc, ← takeWhile_text policy b pc, h]
  have htext := congrArg String.toList h
  rw [toList_text, toList_text] at htext
  refine ⟨hmnemonic, ?_⟩
  rw [hmnemonic] at htext
  exact List.append_cancel_left htext

theorem opcode_eq_of_text (ha : (Instruction.decode policy (byteAt a 0)).documented = true)
    (hb : (Instruction.decode policy (byteAt b 0)).documented = true)
    (h : (ofBytes policy a pc).text = (ofBytes policy b pc).text) : byteAt a 0 = byteAt b 0 := by
  obtain ⟨hmnemonic, htail⟩ := tail_eq_of_text h
  apply Instruction.outline_inj ha hb
  refine Prod.ext hmnemonic ?_
  rw [← map_maskDigit_tail a pc, ← map_maskDigit_tail b pc, htail]

theorem length_renderPiece (p : Piece) :
    (renderPiece a pc i p).toList.length = p.outline.length := by
  rw [← map_maskDigit_renderPiece a pc i p, List.length_map]

theorem renderPiece_eq_of_flatMap {f : Format}
    (h : f.flatMap (fun p => (renderPiece a pc i p).toList) =
      f.flatMap fun p => (renderPiece b pc i p).toList) :
    ∀ p ∈ f, renderPiece a pc i p = renderPiece b pc i p := by
  induction f with
  | nil => exact List.forall_mem_nil _
  | cons p f ih =>
    rw [List.flatMap_cons, List.flatMap_cons] at h
    obtain ⟨hp, hf⟩ := List.append_inj h ((length_renderPiece p).trans (length_renderPiece p).symm)
    exact List.forall_mem_cons.2 ⟨String.toList_injective hp, ih hf⟩

theorem renderPiece_eq_of_tail (h : tail a pc i = tail b pc i) :
    ∀ p ∈ i.mode.format, renderPiece a pc i p = renderPiece b pc i p := by
  intro p hp
  have hformat : i.mode.format.isEmpty = false :=
    List.isEmpty_eq_false_iff.2 (List.ne_nil_of_mem hp)
  simp only [tail, hformat, Bool.false_eq_true, if_false, List.cons.injEq, true_and] at h
  simp only [operand, String.toList_join, List.flatMap_map] at h
  exact renderPiece_eq_of_flatMap h p hp

theorem byteAt_eq_of_renderPiece {p : Piece}
    (h : renderPiece a pc i p = renderPiece b pc i p) :
    ∀ k ∈ p.shows i.mode, byteAt a k = byteAt b k := by
  cases p with
  | text s => exact List.forall_mem_nil _
  | byte => exact List.forall_mem_singleton.2 (Byte.hex_inj h)
  | word =>
    obtain ⟨hlow, hhigh⟩ := Word.ofBytes_inj (Word.hex_inj h)
    exact List.forall_mem_cons.2 ⟨hlow, List.forall_mem_singleton.2 hhigh⟩
  | target =>
    have htarget : target a pc i = target b pc i := Word.hex_inj h
    -- the place after the instruction is the same in both texts
    have hoffset := (BitVec.add_right_inj _).1 htarget
    refine List.forall_mem_singleton.2 ?_
    rw [← Word.low_displacement (byteAt a _), hoffset, Word.low_displacement]

theorem take_eq_iff {n : Nat} (ha : n ≤ a.length) (hb : n ≤ b.length) :
    a.take n = b.take n ↔ ∀ k < n, byteAt a k = byteAt b k := by
  have hget {c : List Byte} (hc : n ≤ c.length) {k : Nat} (hk : k < n) :
      (c.take n)[k]? = some (byteAt c k) := by
    have hk' : k < c.length := Nat.lt_of_lt_of_le hk hc
    rw [List.getElem?_take_of_lt hk, List.getElem?_eq_getElem hk', byteAt,
      List.getD_eq_getElem c 0 hk']
  constructor
  · intro h k hk
    exact Option.some.inj ((hget ha hk).symm.trans ((congrArg (·[k]?) h).trans (hget hb hk)))
  · intro h
    apply List.ext_getElem?
    intro k
    by_cases hk : k < n
    · rw [hget ha hk, hget hb hk, h k hk]
    · rw [List.getElem?_eq_none (by simp; omega), List.getElem?_eq_none (by simp; omega)]

/-- The text of an instruction of the map says all that there is to say about its bytes: where
two texts at one address are the same, so are the opcodes and the operands. It only leaves out
the signature of a break. -/
theorem text_determines_code (policy : Policy) (pc : Word)
    (ha : (Instruction.decode policy (byteAt a 0)).documented = true)
    (hb : (Instruction.decode policy (byteAt b 0)).documented = true)
    (hla : (modeOf policy a).length ≤ a.length) (hlb : (modeOf policy b).length ≤ b.length) :
    (ofBytes policy a pc).text = (ofBytes policy b pc).text ↔
      byteAt a 0 = byteAt b 0 ∧ (byteAt a 0 ≠ 0x00 →
        a.take (modeOf policy a).length = b.take (modeOf policy b).length) := by
  let i := Instruction.decode policy (byteAt a 0)
  have hsame (hop : byteAt a 0 = byteAt b 0) : modeOf policy b = modeOf policy a := by
    rw [modeOf, modeOf, hop]
  constructor
  · intro h
    have hop := opcode_eq_of_text ha hb h
    refine ⟨hop, fun hne => ?_⟩
    have htail : tail a pc i = tail b pc i := by
      have ht := (tail_eq_of_text h).2
      rwa [← hop] at ht
    have hmode : i.mode ≠ .brk := mt (Instruction.opcode_of_brk policy _).1 hne
    rw [hsame hop] at hlb ⊢
    rw [take_eq_iff hla hlb]
    intro k hk
    cases k with
    | zero => exact hop
    | succ k =>
      obtain ⟨p, hp, hshows⟩ := Mode.exists_shows hmode (Nat.succ_pos k) hk
      exact byteAt_eq_of_renderPiece (renderPiece_eq_of_tail htail p hp) _ hshows
  · rintro ⟨hop, hbytes⟩
    by_cases h0 : byteAt a 0 = 0x00
    · have hbrk : i.mode = .brk := (Instruction.opcode_of_brk policy _).2 h0
      have htail (c : List Byte) : tail c pc i = [] := by
        rw [tail, hbrk]
        rfl
      apply String.toList_injective
      rw [toList_text, toList_text, ← hop]
      exact congrArg _ ((htail a).trans (htail b).symm)
    · have htake := hbytes h0
      rw [hsame hop] at hlb htake
      exact congrArg text (ofBytes_congr pc ((take_eq_iff hla hlb).1 htake))

/-- Two branches over the top of the address space that differ in the offset alone, and two
breaks that differ in the signature. -/
theorem text_determines_code_wrapped :
    let near : List Byte := [0x0F, 0x10, 0x02]
    let far : List Byte := [0x0F, 0x10, 0x82]
    (Instruction.decode .sized 0x0F).documented = true ∧
    (ofBytes .sized near 0xFFFE).text ≠ (ofBytes .sized far 0xFFFE).text ∧
    (ofBytes .sized [0x00, 0x12] 0xFFFE).text = (ofBytes .sized [0x00, 0x34] 0xFFFE).text := by
  intro near far
  have hnear : (modeOf .sized near).length ≤ near.length := by decide
  have hfar : (modeOf .sized far).length ≤ far.length := by decide
  refine ⟨by decide, fun h => ?_, ?_⟩
  · have hcode := (text_determines_code .sized 0xFFFE (by decide) (by decide) hnear hfar).1 h
    exact absurd (hcode.2 (by decide)) (by decide)
  · exact (text_determines_code .sized 0xFFFE (by decide) (by decide) (by decide) (by decide)).2
      ⟨rfl, fun h => absurd rfl h⟩

end Disassembly

end Cmos6502
