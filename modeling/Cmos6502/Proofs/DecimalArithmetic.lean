import Cmos6502.Proofs.ByteChains

namespace Cmos6502

namespace Byte

def IsDecimal (b : Byte) : Prop := b.toNat % 16 ≤ 9 ∧ b.toNat / 16 ≤ 9

instance (b : Byte) : Decidable b.IsDecimal := inferInstanceAs (Decidable (_ ∧ _))

def decimal (b : Byte) : Nat := 10 * (b.toNat / 16) + b.toNat % 16

theorem decimal_of_digits {b : Byte} {hi lo : Nat} (h : b.toNat = 16 * hi + lo) (hhi : hi ≤ 9)
    (hlo : lo ≤ 9) : b.IsDecimal ∧ b.decimal = 10 * hi + lo := by
  have hmod : b.toNat % 16 = lo := by omega
  have hdiv : b.toNat / 16 = hi := by omega
  rw [IsDecimal, decimal, hmod, hdiv]
  exact ⟨⟨hlo, hhi⟩, rfl⟩

theorem IsDecimal.decimal_lt {b : Byte} (h : b.IsDecimal) : b.decimal < 100 := by
  obtain ⟨hlo, hhi⟩ := h
  rw [decimal]
  omega

end Byte

def decimalValue (bs : List Byte) : Nat := valueIn 100 Byte.decimal bs

namespace Sum

variable {a v : Byte}

theorem adjust_of_le {n : Nat} (h : n ≤ 19) :
    adjust n % 16 = n % 10 ∧ (decide (15 < adjust n)).toNat = n / 10 := by
  have hcarry : 15 < adjust n ↔ 9 < n := by
    rw [adjust]
    split <;> omega
  by_cases hn : 9 < n
  · rw [decide_eq_true (hcarry.2 hn), adjust, if_pos hn, Bool.toNat_true]
    omega
  · rw [decide_eq_false (mt hcarry.1 hn), adjust, if_neg hn, Bool.toNat_false]
    omega

theorem addDecimal_exact (ha : a.IsDecimal) (hv : v.IsDecimal) (carry : Bool) :
    let s := addDecimal a v carry
    s.value.IsDecimal ∧
      s.value.decimal + 100 * s.carry.toNat = a.decimal + v.decimal + carry.toNat := by
  intro s
  have hc := carry.toNat_le
  obtain ⟨halo, hahi⟩ := ha
  obtain ⟨hvlo, hvhi⟩ := hv
  let lo := a.toNat % 16 + v.toNat % 16 + carry.toNat
  let hi := a.toNat / 16 + v.toNat / 16 + lo / 10
  obtain ⟨hlomod, hlocarry⟩ := adjust_of_le (n := lo) (by omega)
  obtain ⟨himod, hicarry⟩ := adjust_of_le (n := hi) (by omega)
  have hhi : a.toNat / 16 + v.toNat / 16 + (decide (15 < adjust lo)).toNat = hi := by
    rw [hlocarry]
  have hvalue : s.value.toNat = 16 * (hi % 10) + lo % 10 := by
    have hraw : s.value.toNat = (16 * adjust hi + adjust lo % 16) % 256 := by
      rw [← hhi]
      exact BitVec.toNat_ofNat _ 8
    omega
  have hcarry : s.carry.toNat = hi / 10 := by
    rw [← hicarry, ← hhi]
    rfl
  obtain ⟨hdecimal, hsum⟩ := Byte.decimal_of_digits hvalue (by omega) (by omega)
  refine ⟨hdecimal, ?_⟩
  rw [hsum, hcarry, Byte.decimal, Byte.decimal]
  omega

theorem exists_borrow {l : Int} (h : -10 ≤ l) (h' : l ≤ 9) :
    ∃ digit borrow : Nat, digit ≤ 9 ∧ l = digit - 10 * borrow ∧
      (l < 0 ∧ borrow = 1 ∨ 0 ≤ l ∧ borrow = 0) := by
  by_cases hl : l < 0
  · exact ⟨(l + 10).toNat, 1, by omega, by omega, .inl ⟨hl, rfl⟩⟩
  · exact ⟨l.toNat, 0, by omega, by omega, .inr ⟨by omega, rfl⟩⟩

theorem subDecimal_exact (ha : a.IsDecimal) (hv : v.IsDecimal) (carry : Bool) :
    let s := subDecimal a v carry
    s.value.IsDecimal ∧
      s.value.decimal + 100 * s.carry.toNat = a.decimal + (99 - v.decimal) + carry.toNat := by
  intro s
  obtain ⟨halo, hahi⟩ := ha
  obtain ⟨hvlo, hvhi⟩ := hv
  have hnot : (!carry).toNat + carry.toNat = 1 := by cases carry <;> rfl
  let d : Int := a.toNat - v.toNat - (!carry).toNat
  let lo : Int := (a.toNat % 16 : Nat) - (v.toNat % 16 : Nat) - (!carry).toNat
  obtain ⟨r₀, b₀, hr₀, hlo, hsign₀⟩ := exists_borrow (l := lo) (by omega) (by omega)
  obtain ⟨r₁, b₁, hr₁, hhi, hsign₁⟩ :=
    exists_borrow (l := (a.toNat / 16 : Nat) - (v.toNat / 16 : Nat) - b₀) (by omega) (by omega)
  have hd : d = 16 * r₁ + r₀ - 160 * b₁ + 6 * b₀ := by omega
  -- the corrections are sixteen less ten for each digit that has borrowed
  have hcorrection : (if d < 0 then 0x60 else 0) + (if lo < 0 then 0x06 else 0) =
      96 * (b₁ : Int) + 6 * b₀ := by
    have h₁ : d < 0 ↔ b₁ = 1 := by omega
    have h₀ : lo < 0 ↔ b₀ = 1 := by omega
    simp only [h₁, h₀]
    split <;> split <;> omega
  have hvalue : s.value.toNat = 16 * r₁ + r₀ := by
    have hraw : s.value.toNat = ((d - ((if d < 0 then 0x60 else 0) +
        (if lo < 0 then 0x06 else 0))) % 256).toNat := BitVec.toNat_ofInt _
    rw [hraw, hcorrection, hd]
    omega
  have hcarry : s.carry.toNat + b₁ = 1 := by
    have hs : s.carry = decide (0 ≤ d) := rfl
    rw [hs]
    by_cases hneg : 0 ≤ d
    · rw [decide_eq_true hneg, Bool.toNat_true]
      omega
    · rw [decide_eq_false hneg, Bool.toNat_false]
      omega
  obtain ⟨hdecimal, hsum⟩ := Byte.decimal_of_digits hvalue hr₁ hr₀
  refine ⟨hdecimal, ?_⟩
  rw [hsum, Byte.decimal, Byte.decimal]
  omega

/-- Whatever the digits are, a decimal difference carries and overflows as the binary one. -/
theorem flags_subDecimal (a v : Byte) (carry : Bool) :
    (subDecimal a v carry).carry = (sub a v carry).carry ∧
      (subDecimal a v carry).overflow = (sub a v carry).overflow := by
  have ha := a.isLt
  have hv := v.isLt
  have hnot : (!carry).toNat + carry.toNat = 1 := by cases carry <;> rfl
  have hcomplement : (~~~v).toNat = 255 - v.toNat := BitVec.toNat_not
  let d : Int := a.toNat - v.toNat - (!carry).toNat
  let r : Byte := .ofNat 8 (a.toNat + (~~~v).toNat + carry.toNat)
  have hr : BitVec.ofInt 8 d = r := by
    apply BitVec.eq_of_toNat_eq
    rw [BitVec.toNat_ofInt, BitVec.toNat_ofNat, hcomplement]
    omega
  constructor
  · have hs : 0 ≤ d ↔ 255 < a.toNat + (~~~v).toNat + carry.toNat := by omega
    exact decide_eq_decide.2 hs
  · change ((a ^^^ BitVec.ofInt 8 d) &&& (a ^^^ v)).msb = ((a ^^^ r) &&& (~~~v ^^^ r)).msb
    rw [hr]
    simp only [BitVec.msb_and, BitVec.msb_xor, BitVec.msb_not]
    cases a.msb <;> cases v.msb <;> cases r.msb <;> rfl

end Sum

namespace ReadOp

theorem adc_of_decimal {r : Registers} (h : r.p.decimal = true) (x y : Byte) :
    adc.apply (r.loadA x) y = (r.loadA x).accumulate (.addDecimal x y r.p.carry) := by
  simp [apply, Registers.loadA, Flags.withResult, h]

theorem sbc_of_decimal {r : Registers} (h : r.p.decimal = true) (x y : Byte) :
    sbc.apply (r.loadA x) y = (r.loadA x).accumulate (.subDecimal x y r.p.carry) := by
  simp [apply, Registers.loadA, Flags.withResult, h]

theorem adds_adc_decimal :
    adc.Adds (fun r => r.p.decimal = true) Byte.IsDecimal 100 Byte.decimal Byte.decimal where
  one_lt := by decide
  digit_lt x hx := hx.decimal_lt
  ready_apply r x y hr := by
    rw [adc_of_decimal hr]
    exact hr
  valid_apply r x y hr hx hy := by
    rw [adc_of_decimal hr]
    exact (Sum.addDecimal_exact hx hy r.p.carry).1
  sum_eq r x y hr hx hy := by
    rw [adc_of_decimal hr]
    exact (Sum.addDecimal_exact hx hy r.p.carry).2

theorem adds_sbc_decimal :
    sbc.Adds (fun r => r.p.decimal = true) Byte.IsDecimal 100 Byte.decimal
      (fun b => 100 - 1 - b.decimal) where
  one_lt := by decide
  digit_lt x hx := hx.decimal_lt
  ready_apply r x y hr := by
    rw [sbc_of_decimal hr]
    exact hr
  valid_apply r x y hr hx hy := by
    rw [sbc_of_decimal hr]
    exact (Sum.subDecimal_exact hx hy r.p.carry).1
  sum_eq r x y hr hx hy := by
    rw [sbc_of_decimal hr]
    exact (Sum.subDecimal_exact hx hy r.p.carry).2

theorem flags_apply {op : ReadOp} (h : op = adc ∨ op = sbc) (r : Registers) (v : Byte) :
    let t := op.apply r v
    t.p.negative = t.a.msb ∧ t.p.zero = (t.a == 0) := by
  obtain rfl | rfl := h <;> exact ⟨rfl, rfl⟩

theorem flags_sbc_decimal (r : Registers) (v : Byte) :
    let t := sbc.apply { r with p.decimal := true } v
    let u := sbc.apply { r with p.decimal := false } v
    t.p.carry = u.p.carry ∧ t.p.overflow = u.p.overflow :=
  Sum.flags_subDecimal r.a v r.p.carry

end ReadOp

namespace Registers

variable {r : Registers} {xs ys : List Byte}

/-- In decimal mode a chain of additions or subtractions is that of the whole numbers, however
long they are: its results are decimal bytes again, the carry that it ends with tells of an
overflow or of no borrow, and after each byte the flags are those of its result. -/
theorem decimal_arithmetic_exact (hd : r.p.decimal = true) (hlen : xs.length = ys.length)
    (hx : ∀ x ∈ xs, x.IsDecimal) (hy : ∀ y ∈ ys, y.IsDecimal) :
    let n := xs.length
    let x := decimalValue xs
    let y := decimalValue ys
    let c := r.p.carry.toNat
    let sum := r.results .adc xs ys
    let difference := r.results .sbc xs ys
    (sum.length = n ∧ (∀ b ∈ sum, b.IsDecimal) ∧ decimalValue sum = (x + y + c) % 100 ^ n ∧
      (r.carryOut .adc xs ys = true ↔ 100 ^ n ≤ x + y + c)) ∧
    (difference.length = n ∧ (∀ b ∈ difference, b.IsDecimal) ∧
      (decimalValue difference : Int) = (x - y - (1 - c)) % 100 ^ n ∧
      (r.carryOut .sbc xs ys = true ↔ (0 : Int) ≤ x - y - (1 - c))) ∧
    (∀ t ∈ r.chain .adc xs ys ++ r.chain .sbc xs ys,
      t.p.negative = t.a.msb ∧ t.p.zero = (t.a == 0)) ∧
    ∀ (q : Registers) (v : Byte),
      let t := ReadOp.sbc.apply { q with p.decimal := true } v
      let u := ReadOp.sbc.apply { q with p.decimal := false } v
      t.p.carry = u.p.carry ∧ t.p.overflow = u.p.overflow := by
  intro n x y c sum difference
  have hadd := ReadOp.adds_adc_decimal
  have hsub := ReadOp.adds_sbc_decimal
  refine ⟨?_, ?_, ?_, ReadOp.flags_sbc_decimal⟩
  · obtain ⟨hlength, hvalid, -⟩ := hadd.value_chain hd hlen hx hy
    exact ⟨hlength, hvalid, hadd.sum_chain hd hlen hx hy⟩
  · obtain ⟨hlength, hvalid, -⟩ := hsub.value_chain hd hlen hx hy
    obtain ⟨hvalue, hcarry⟩ := hsub.difference_chain hd hlen hx hy
    rw [Nat.cast_pow] at hvalue
    exact ⟨hlength, hvalid, hvalue, hcarry⟩
  · intro t ht
    obtain ht | ht := List.mem_append.1 ht
    · obtain ⟨q, v, rfl⟩ := mem_chain ht
      exact ReadOp.flags_apply (.inl rfl) q v
    · obtain ⟨q, v, rfl⟩ := mem_chain ht
      exact ReadOp.flags_apply (.inr rfl) q v

/-- With the carry set, `999950 + 000050` wraps to one, and `000050 - 999950` borrows. -/
theorem decimal_arithmetic_exact_wrapped :
    let r : Registers := { powerOn with p.decimal := true, p.carry := true }
    let small : List Byte := [0x50, 0x00, 0x00]
    let large : List Byte := [0x50, 0x99, 0x99]
    (∀ b ∈ small ++ large, b.IsDecimal) ∧
    decimalValue (r.results .adc large small) = 1 ∧ r.carryOut .adc large small = true ∧
    (decimalValue (r.results .sbc small large) : Int) = 100 ∧
    r.carryOut .sbc small large = false := by
  intro r small large
  have hall : ∀ b ∈ small ++ large, b.IsDecimal := by decide
  obtain ⟨hsmall, hlarge⟩ := List.forall_mem_append.1 hall
  have hlen : large.length = small.length := rfl
  have hs : decimalValue small = 50 := rfl
  have hl : decimalValue large = 999950 := rfl
  have hc : r.p.carry.toNat = 1 := rfl
  have hn : large.length = 3 := rfl
  obtain ⟨⟨-, -, hsum, hcarry⟩, -⟩ := decimal_arithmetic_exact (r := r) rfl hlen hlarge hsmall
  obtain ⟨-, ⟨-, -, hdifference, hborrow⟩, -⟩ :=
    decimal_arithmetic_exact (r := r) rfl hlen.symm hsmall hlarge
  rw [hs, hl, hc, hn] at hsum hcarry
  rw [hs, hl, hc, ← hlen, hn] at hdifference
  rw [hs, hl, hc] at hborrow
  refine ⟨hall, hsum, hcarry.2 (by decide), hdifference, ?_⟩
  exact Bool.eq_false_iff.2 (mt hborrow.1 (by decide))

end Registers

end Cmos6502
