import Cmos6502.Proofs.ByteChains

namespace Cmos6502

def binaryValue (bs : List Byte) : Nat := valueIn 256 BitVec.toNat bs

/-- The bytes put together to one word, whose sign is that of the last. -/
def joined (bs : List Byte) : BitVec (8 * bs.length) := .ofNat _ (binaryValue bs)

def FitsIn (n : Nat) (z : Int) : Prop := -2 ^ (8 * n - 1) ≤ z ∧ z < 2 ^ (8 * n - 1)

instance (n : Nat) (z : Int) : Decidable (FitsIn n z) := inferInstanceAs (Decidable (_ ∧ _))

theorem Byte.sign_cases (b : Byte) :
    b.msb = true ∧ b.toInt = b.toNat - 256 ∧ 128 ≤ b.toNat ∨
      b.msb = false ∧ b.toInt = b.toNat ∧ b.toNat < 128 := by
  have hm := BitVec.msb_eq_decide b
  have hi := BitVec.toInt_eq_msb_cond b
  cases h : b.msb <;> simp_all

section Words

variable {b : Byte} {bs : List Byte}

theorem binaryValue_cons (b : Byte) (bs : List Byte) :
    binaryValue (b :: bs) = b.toNat + 256 * binaryValue bs :=
  valueIn_cons b

theorem binaryValue_lt (bs : List Byte) : binaryValue bs < 256 ^ bs.length :=
  valueIn_lt (by decide) fun b _ => b.isLt

theorem toNat_joined (bs : List Byte) : (joined bs).toNat = binaryValue bs := by
  have hpow : 2 ^ (8 * bs.length) = 256 ^ bs.length := pow_mul 2 8 bs.length
  rw [joined, BitVec.toNat_ofNat, hpow, Nat.mod_eq_of_lt (binaryValue_lt bs)]

theorem exists_half (h : bs ≠ []) :
    ∃ q : Nat, 0 < q ∧ 2 ^ (8 * bs.length) = 2 * q ∧ 2 ^ (8 * bs.length - 1) = q := by
  have hpos : 0 < bs.length := List.length_pos_iff.2 h
  refine ⟨2 ^ (8 * bs.length - 1), Nat.two_pow_pos _, ?_, rfl⟩
  rw [← pow_succ', Nat.sub_add_cancel (by omega)]

theorem toInt_joined_singleton (b : Byte) : (joined [b]).toInt = b.toInt := by
  have hb : (joined [b]).toNat = b.toNat := by
    rw [toNat_joined, binaryValue_cons]
    rfl
  rw [BitVec.toInt_eq_toNat_cond, BitVec.toInt_eq_toNat_cond, hb]
  rfl

theorem toInt_joined_cons (b : Byte) (h : bs ≠ []) :
    (joined (b :: bs)).toInt = b.toNat + 256 * (joined bs).toInt := by
  obtain ⟨q, hq, hrange, -⟩ := exists_half h
  have hlt := (joined bs).isLt
  have hb := b.isLt
  have hrange' : 2 ^ (8 * (b :: bs).length) = 512 * q := by
    rw [List.length_cons, Nat.mul_succ, pow_add, hrange]
    omega
  rw [BitVec.toInt_eq_toNat_cond, BitVec.toInt_eq_toNat_cond, hrange, hrange', toNat_joined,
    toNat_joined, binaryValue_cons]
  rw [hrange, toNat_joined] at hlt
  split <;> split <;> omega

theorem msb_joined_singleton (b : Byte) : (joined [b]).msb = b.msb := by
  rw [BitVec.msb_eq_toInt, BitVec.msb_eq_toInt, toInt_joined_singleton]

theorem msb_joined_cons (b : Byte) (h : bs ≠ []) : (joined (b :: bs)).msb = (joined bs).msb := by
  have hb := b.isLt
  rw [BitVec.msb_eq_toInt, BitVec.msb_eq_toInt, toInt_joined_cons b h, decide_eq_decide]
  omega

theorem toInt_complement (b : Byte) : (~~~b).toInt = -1 - b.toInt := by
  have hb := b.isLt
  rw [BitVec.toInt_eq_toNat_cond, BitVec.toInt_eq_toNat_cond, BitVec.toNat_not]
  split <;> split <;> omega

theorem toInt_joined_complement (h : bs ≠ []) :
    (joined (bs.map (~~~·))).toInt = -1 - (joined bs).toInt := by
  induction bs with
  | nil => exact absurd rfl h
  | cons b bs ih =>
    by_cases hbs : bs = []
    · subst hbs
      rw [List.map_singleton, toInt_joined_singleton, toInt_joined_singleton, toInt_complement]
    · have hnot : (~~~b).toNat = 255 - b.toNat := BitVec.toNat_not
      have hb := b.isLt
      rw [List.map_cons, toInt_joined_cons _ (mt List.map_eq_nil_iff.1 hbs), toInt_joined_cons _ hbs,
        ih hbs, hnot]
      omega

theorem fitsIn_cons (h : bs ≠ []) (b : Byte) (z : Int) :
    FitsIn (b :: bs).length (b.toNat + 256 * z) ↔ FitsIn bs.length z := by
  obtain ⟨q, hq, -, hhalf⟩ := exists_half h
  have hb := b.isLt
  have hpos : 0 < bs.length := List.length_pos_iff.2 h
  have hbits : 8 * (b :: bs).length - 1 = 8 + (8 * bs.length - 1) := by
    rw [List.length_cons]
    omega
  have hcast : (2 : Int) ^ (8 * bs.length - 1) = q := by
    rw [← hhalf, Nat.cast_pow]
    rfl
  rw [FitsIn, FitsIn, hbits, pow_add, hcast]
  omega

end Words

namespace Sum

theorem add_exact (a v : Byte) (carry : Bool) :
    let s := add a v carry
    s.value.toNat + 256 * s.carry.toNat = a.toNat + v.toNat + carry.toNat := by
  intro s
  have ha := a.isLt
  have hv := v.isLt
  have hc := carry.toNat_le
  let n := a.toNat + v.toNat + carry.toNat
  have hvalue : s.value.toNat = n % 256 := BitVec.toNat_ofNat _ _
  have hcarry : s.carry = decide (255 < n) := rfl
  rw [hvalue, hcarry]
  by_cases hn : 255 < n
  · rw [decide_eq_true hn, Bool.toNat_true]
    omega
  · rw [decide_eq_false hn, Bool.toNat_false]
    omega

theorem signs_add (a v : Byte) (carry : Bool) :
    let s := add a v carry
    let z := a.toInt + v.toInt + carry.toNat
    (s.overflow = true ↔ ¬ FitsIn 1 z) ∧ ((s.value.msb ^^ s.overflow) = true ↔ z < 0) := by
  intro s z
  have ha := a.isLt
  have hv := v.isLt
  have hc := carry.toNat_le
  let r : Byte := .ofNat 8 (a.toNat + v.toNat + carry.toNat)
  have hr : r.toNat = (a.toNat + v.toNat + carry.toNat) % 256 := BitVec.toNat_ofNat _ _
  have hvalue : s.value = r := rfl
  have hoverflow : s.overflow = ((a.msb ^^ r.msb) && (v.msb ^^ r.msb)) := by
    rw [← BitVec.msb_xor, ← BitVec.msb_xor, ← BitVec.msb_and]
    rfl
  have hz : z = a.toInt + v.toInt + carry.toNat := rfl
  have hfits : FitsIn 1 z ↔ -128 ≤ z ∧ z < 128 := Iff.rfl
  rw [hvalue, hoverflow, hfits]
  -- with the three signs known, the bounds of the bytes decide
  obtain ⟨hma, hia, hna⟩ | ⟨hma, hia, hna⟩ := Byte.sign_cases a <;>
    obtain ⟨hmv, hiv, hnv⟩ | ⟨hmv, hiv, hnv⟩ := Byte.sign_cases v <;>
    obtain ⟨hmr, -, hnr⟩ | ⟨hmr, -, hnr⟩ := Byte.sign_cases r <;>
    rw [hma, hmv, hmr] <;>
    simp <;> omega

end Sum

namespace ReadOp

theorem adc_of_binary {r : Registers} (h : r.p.decimal = false) (x y : Byte) :
    adc.apply (r.loadA x) y = (r.loadA x).accumulate (.add x y r.p.carry) := by
  simp [apply, Registers.loadA, Flags.withResult, h]

theorem sbc_of_binary {r : Registers} (h : r.p.decimal = false) (x y : Byte) :
    sbc.apply (r.loadA x) y = adc.apply (r.loadA x) (~~~y) := by
  simp [apply, Registers.loadA, Flags.withResult, h, Sum.sub]

theorem adds_adc_binary :
    adc.Adds (fun r => r.p.decimal = false) (fun _ => True) 256 BitVec.toNat BitVec.toNat where
  one_lt := by decide
  digit_lt x _ := x.isLt
  ready_apply r x y hr := by
    rw [adc_of_binary hr]
    exact hr
  valid_apply _ _ _ _ _ _ := trivial
  sum_eq r x y hr _ _ := by
    rw [adc_of_binary hr]
    exact Sum.add_exact x y r.p.carry

theorem adds_sbc_binary :
    sbc.Adds (fun r => r.p.decimal = false) (fun _ => True) 256 BitVec.toNat
      (fun b => 256 - 1 - b.toNat) where
  one_lt := by decide
  digit_lt x _ := x.isLt
  ready_apply r x y hr := by
    rw [sbc_of_binary hr]
    exact adds_adc_binary.ready_apply r x (~~~y) hr
  valid_apply _ _ _ _ _ _ := trivial
  sum_eq r x y hr _ _ := by
    have hnot : (~~~y).toNat = 256 - 1 - y.toNat := BitVec.toNat_not
    rw [sbc_of_binary hr, ← hnot]
    exact adds_adc_binary.sum_eq r x (~~~y) hr trivial trivial

end ReadOp

namespace Registers

def atEnd (op : ReadOp) (r : Registers) (xs ys : List Byte) : Registers :=
  (r.chain op xs ys).getLastD r

/-- The flags tell of a number that has been computed, of which `bs` is what could be kept. -/
structure Signs (t : Registers) (bs : List Byte) (z : Int) : Prop where
  negative_eq : t.p.negative = (joined bs).msb
  overflow_iff : t.p.overflow = true ↔ ¬ FitsIn bs.length z
  sign_iff : (t.p.negative ^^ t.p.overflow) = true ↔ z < 0

variable {r t : Registers} {xs ys : List Byte}

theorem Signs.cons {bs : List Byte} {z : Int} (h : t.Signs bs z) (hne : bs ≠ []) (b : Byte) :
    t.Signs (b :: bs) (b.toNat + 256 * z) where
  negative_eq := h.negative_eq.trans (msb_joined_cons b hne).symm
  overflow_iff := by rw [fitsIn_cons hne, h.overflow_iff]
  sign_iff := by
    have hb := b.isLt
    rw [h.sign_iff]
    omega

theorem atEnd_cons (op : ReadOp) (x y : Byte) :
    r.atEnd op (x :: xs) (y :: ys) = (op.apply (r.loadA x) y).atEnd op xs ys := by
  rw [atEnd, chain_cons, List.getLastD_cons]
  rfl

theorem results_cons (op : ReadOp) (x y : Byte) :
    r.results op (x :: xs) (y :: ys) =
      (op.apply (r.loadA x) y).a :: (op.apply (r.loadA x) y).results op xs ys := rfl

theorem length_results_adc (hd : r.p.decimal = false) (hlen : xs.length = ys.length) :
    (r.results .adc xs ys).length = xs.length :=
  (ReadOp.adds_adc_binary.value_chain hd hlen (fun _ _ => trivial) fun _ _ => trivial).1

theorem signs_adc (hd : r.p.decimal = false) (x y : Byte) :
    let t := ReadOp.adc.apply (r.loadA x) y
    t.Signs [t.a] (x.toInt + y.toInt + r.p.carry.toNat) := by
  intro t
  have ht : t = (r.loadA x).accumulate (.add x y r.p.carry) := ReadOp.adc_of_binary hd x y
  obtain ⟨hoverflow, hsign⟩ := Sum.signs_add x y r.p.carry
  rw [ht]
  exact ⟨(msb_joined_singleton _).symm, hoverflow, hsign⟩

theorem signs_atEnd (hd : r.p.decimal = false) (hlen : xs.length = ys.length) (hne : xs ≠ []) :
    (r.atEnd .adc xs ys).Signs (r.results .adc xs ys)
      ((joined xs).toInt + (joined ys).toInt + r.p.carry.toNat) := by
  induction xs generalizing r ys with
  | nil => exact absurd rfl hne
  | cons x xs ih =>
    cases ys with
    | nil => cases hlen
    | cons y ys =>
      have hlen' : xs.length = ys.length := Nat.succ.inj hlen
      let t := ReadOp.adc.apply (r.loadA x) y
      by_cases hxs : xs = []
      · subst hxs
        cases List.length_eq_zero_iff.1 hlen'.symm
        rw [toInt_joined_singleton, toInt_joined_singleton]
        exact signs_adc hd x y
      · have hpos : 0 < xs.length := List.length_pos_iff.2 hxs
        have hys : ys ≠ [] := List.length_pos_iff.1 (hlen' ▸ hpos)
        have hready : t.p.decimal = false := ReadOp.adds_adc_binary.ready_apply r x y hd
        have hrest : t.results .adc xs ys ≠ [] :=
          List.length_pos_iff.1 (length_results_adc hready hlen' ▸ hpos)
        have hstep : t.a.toNat + 256 * t.p.carry.toNat = x.toNat + y.toNat + r.p.carry.toNat :=
          ReadOp.adds_adc_binary.sum_eq r x y hd trivial trivial
        -- only the last byte has a sign, so this one is added without
        have hz : (joined (x :: xs)).toInt + (joined (y :: ys)).toInt + r.p.carry.toNat =
            t.a.toNat + 256 * ((joined xs).toInt + (joined ys).toInt + t.p.carry.toNat) := by
          rw [toInt_joined_cons x hxs, toInt_joined_cons y hys]
          omega
        rw [atEnd_cons, results_cons, hz]
        exact (ih hready hlen' hxs).cons hrest t.a

theorem chain_sbc (hd : r.p.decimal = false) :
    r.chain .sbc xs ys = r.chain .adc xs (ys.map (~~~·)) := by
  induction xs generalizing r ys with
  | nil => rfl
  | cons x xs ih =>
    cases ys with
    | nil => rfl
    | cons y ys =>
      have hready := ReadOp.adds_sbc_binary.ready_apply r x y hd
      rw [List.map_cons, chain_cons, chain_cons, ih hready, ReadOp.sbc_of_binary hd]

theorem signs_atEnd_sbc (hd : r.p.decimal = false) (hlen : xs.length = ys.length)
    (hne : xs ≠ []) :
    (r.atEnd .sbc xs ys).Signs (r.results .sbc xs ys)
      ((joined xs).toInt - (joined ys).toInt - (1 - r.p.carry.toNat)) := by
  have hys : ys ≠ [] := by
    rintro rfl
    exact hne (List.length_eq_zero_iff.1 hlen)
  have hz : (joined xs).toInt - (joined ys).toInt - (1 - r.p.carry.toNat) =
      (joined xs).toInt + (joined (ys.map (~~~·))).toInt + r.p.carry.toNat := by
    rw [toInt_joined_complement hys]
    omega
  rw [atEnd, results, chain_sbc hd, hz]
  exact signs_atEnd hd (hlen.trans (List.length_map _).symm) hne

/-- In binary mode a chain of additions or subtractions is that of the whole numbers, however
long they are, both with and without a sign: the carry that it ends with tells of an overflow or
of no borrow, the overflow flag of a signed result that does not fit, and the negative flag is
its top bit. Hence a subtraction compares signed numbers. -/
theorem binary_arithmetic_exact (hd : r.p.decimal = false) (hlen : xs.length = ys.length)
    (hne : xs ≠ []) :
    let n := xs.length
    let x := binaryValue xs
    let y := binaryValue ys
    let signedX := (joined xs).toInt
    let signedY := (joined ys).toInt
    let c := r.p.carry.toNat
    let sum := r.results .adc xs ys
    let difference := r.results .sbc xs ys
    let added := (r.atEnd .adc xs ys).p
    let subtracted := (r.atEnd .sbc xs ys).p
    (sum.length = n ∧ binaryValue sum = (x + y + c) % 256 ^ n ∧
      (added.carry = true ↔ 256 ^ n ≤ x + y + c) ∧
      (added.overflow = true ↔ ¬ FitsIn n (signedX + signedY + c)) ∧
      added.negative = (joined sum).msb) ∧
    (difference.length = n ∧ (binaryValue difference : Int) = (x - y - (1 - c)) % 256 ^ n ∧
      (subtracted.carry = true ↔ y + (1 - c) ≤ x) ∧
      (subtracted.overflow = true ↔ ¬ FitsIn n (signedX - signedY - (1 - c))) ∧
      subtracted.negative = (joined difference).msb) ∧
    (c = 1 → ((subtracted.negative ^^ subtracted.overflow) = true ↔ signedX < signedY)) := by
  intro n x y signedX signedY c sum difference added subtracted
  have hc := r.p.carry.toNat_le
  have hall (bs : List Byte) : ∀ b ∈ bs, True := fun _ _ => trivial
  have hadd := ReadOp.adds_adc_binary
  have hsub := ReadOp.adds_sbc_binary
  have hsum := signs_atEnd hd hlen hne
  have hdifference := signs_atEnd_sbc hd hlen hne
  have hlenSum := length_results_adc hd hlen
  have hlenDifference := (hsub.value_chain hd hlen (hall xs) (hall ys)).1
  refine ⟨?add, ?subtract, ?compare⟩
  case add =>
    obtain ⟨hvalue, hcarry⟩ := hadd.sum_chain hd hlen (hall xs) (hall ys)
    have hoverflow := hsum.overflow_iff
    rw [hlenSum] at hoverflow
    exact ⟨hlenSum, hvalue, hcarry, hoverflow, hsum.negative_eq⟩
  case subtract =>
    obtain ⟨hvalue, hcarry⟩ := hsub.difference_chain hd hlen (hall xs) (hall ys)
    have hoverflow := hdifference.overflow_iff
    rw [hlenDifference] at hoverflow
    rw [Nat.cast_pow] at hvalue
    refine ⟨hlenDifference, hvalue, hcarry.trans ?_, hoverflow, hdifference.negative_eq⟩
    change (0 : Int) ≤ x - y - (1 - c) ↔ y + (1 - c) ≤ x
    omega
  case compare =>
    intro hone
    refine hdifference.sign_iff.trans ?_
    change signedX - signedY - (1 - c) < 0 ↔ signedX < signedY
    omega

/-- `$7FFF + $0001` overflows to a negative number, and the comparison of `$8000` with
`$7FFF` sees through the overflow that it ends with. -/
theorem binary_arithmetic_exact_overflow :
    let r : Registers := powerOn
    let unborrowed : Registers := { powerOn with p.carry := true }
    let one : List Byte := [0x01, 0x00]
    let largest : List Byte := [0xFF, 0x7F]
    let smallest : List Byte := [0x00, 0x80]
    binaryValue (r.results .adc largest one) = 0x8000 ∧
    (r.atEnd .adc largest one).p.overflow = true ∧
    (r.atEnd .adc largest one).p.carry = false ∧
    (binaryValue (unborrowed.results .sbc smallest largest) : Int) = 1 ∧
    (unborrowed.atEnd .sbc smallest largest).p.overflow = true ∧
    ((unborrowed.atEnd .sbc smallest largest).p.negative ^^
      (unborrowed.atEnd .sbc smallest largest).p.overflow) = true := by
  intro r unborrowed one largest smallest
  have hlen : largest.length = one.length := rfl
  have hlen' : smallest.length = largest.length := rfl
  obtain ⟨⟨-, hsum, hcarry, hoverflow, -⟩, -⟩ :=
    binary_arithmetic_exact (r := r) rfl hlen (by decide)
  obtain ⟨-, ⟨-, hdifference, -, hoverflow', -⟩, hless⟩ :=
    binary_arithmetic_exact (r := unborrowed) rfl hlen' (by decide)
  refine ⟨hsum.trans (by decide), hoverflow.2 (by decide), ?_, hdifference.trans (by decide),
    hoverflow'.2 (by decide), (hless rfl).2 (by decide)⟩
  exact Bool.eq_false_iff.2 (mt hcarry.1 (by decide))

end Registers

end Cmos6502
