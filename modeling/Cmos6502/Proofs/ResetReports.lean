import Cmos6502.Proofs.Reports

namespace Cmos6502

/-- How often a counter is found at its threshold when it is raised `n` times and stops at the
largest byte: once when it passes, and every time from then on if that byte is the threshold. -/
def announced (threshold count n : Nat) : Nat :=
  if threshold = 255 then count + n - max count 254
  else if count < threshold ∧ threshold ≤ count + n then 1 else 0

theorem announced_succ {threshold count : Nat} (ht : threshold ≤ 255) (hc : count ≤ 255) (n : Nat) :
    announced threshold count (n + 1) =
      (decide (min 255 (count + 1) = threshold)).toNat +
        announced threshold (min 255 (count + 1)) n := by
  rw [announced, announced]
  by_cases hlast : min 255 (count + 1) = threshold
  · rw [decide_eq_true hlast, Bool.toNat_true]
    split
    · omega
    · rw [if_pos (by omega), if_neg (by omega)]
  · rw [decide_eq_false hlast, Bool.toNat_false, Nat.zero_add]
    split
    · omega
    · have hiff : count < threshold ∧ threshold ≤ count + (n + 1) ↔
          min 255 (count + 1) < threshold ∧ threshold ≤ min 255 (count + 1) + n := by omega
      simp only [hiff]

namespace Cpu

variable {c : Cpu} {e : Bus × Bus} {es : List (Bus × Bus)}

theorem isReset_edge (c : Cpu) (e : Bus × Bus) :
    (c.edgeReports e).countP Report.isReset =
      (e.2.reset.asserted && held c.state.resetHold == c.config.resetThreshold).toNat := by
  have hdrive : (c.driveReports e.1).countP Report.isReset = 0 :=
    List.countP_eq_zero.2 fun _ hr => (warranted_drive hr).not_isReset
  have hfinish : ((c.drive e.1).1.finishReports e.2).countP Report.isReset = 0 :=
    List.countP_eq_zero.2 fun _ hr => (warranted_cycle hr).not_isReset
  rw [edgeReports, latchReports, List.countP_append, List.countP_append, hdrive, hfinish,
    Nat.zero_add, Nat.zero_add, resetReports, resetHold_finish, resetHold_drive, config_finish,
    config_drive]
  cases hr : e.2.reset.asserted with
  | false => rfl
  | true =>
    by_cases hheld : held c.state.resetHold = c.config.resetThreshold
    · rw [if_pos ⟨rfl, hheld⟩, beq_iff_eq.2 hheld]
      rfl
    · rw [if_neg fun h => hheld h.2, beq_false_of_ne hheld]
      rfl

theorem countP_reports (hes : ∀ e ∈ es, e.2.reset.asserted = true) :
    (c.reports es).countP Report.isReset =
      announced c.config.resetThreshold.toNat c.state.resetHold.toNat es.length := by
  have hcount := c.state.resetHold.isLt
  have hthreshold := c.config.resetThreshold.isLt
  induction es generalizing c with
  | nil =>
    rw [reports, announced, List.length_nil]
    split
    · exact (Nat.sub_eq_zero_of_le (by omega)).symm
    · exact (if_neg (by omega)).symm
  | cons e es ih =>
    obtain ⟨he, hes'⟩ := List.forall_mem_cons.1 hes
    have hheld : (held c.state.resetHold == c.config.resetThreshold) =
        decide (min 255 (c.state.resetHold.toNat + 1) = c.config.resetThreshold.toNat) := by
      rw [Bool.eq_iff_iff, beq_iff_eq, decide_eq_true_eq, ← toNat_held]
      exact ⟨congrArg BitVec.toNat, BitVec.eq_of_toNat_eq⟩
    rw [reports, List.countP_append, isReset_edge, he, Bool.true_and, hheld,
      ih hes' (BitVec.isLt _) (BitVec.isLt _), config_edge, resetHold_edge, toNat_countReset,
      if_pos he, List.length_cons,
      announced_succ (Nat.le_of_lt_succ hthreshold) (Nat.le_of_lt_succ hcount)]

/-- A reset that is held is told of once, when it has been held for long enough, unless the
threshold is the largest that the counter can reach: then it is told of on every edge from
there on. -/
theorem reset_told_once (h0 : c.state.resetHold = 0)
    (hes : ∀ e ∈ es, e.2.reset.asserted = true) :
    let enough := max 1 c.config.resetHoldEdges.toNat
    let told := (c.reports es).countP Report.isReset
    (told = (if enough ≤ es.length then 1 else 0) ↔ (enough = 255 → es.length ≤ 255)) ∧
      (enough = 255 → told = es.length - 254) := by
  intro enough told
  have htold : told = announced enough 0 es.length := by
    have h : told = announced c.config.resetThreshold.toNat c.state.resetHold.toNat es.length :=
      countP_reports hes
    rw [toNat_resetThreshold, h0] at h
    exact h
  have henough : 1 ≤ enough := le_max_left 1 _
  rw [htold, announced]
  split
  · next hlast => split <;> omega
  · next hlast =>
    have hiff : 0 < enough ∧ enough ≤ 0 + es.length ↔ enough ≤ es.length := by omega
    simp only [hiff, hlast, false_implies, and_self]

theorem reset_told_once_long :
    let c := powerOn ⟨.sized, 0⟩
    let low : Bus := { Bus.quiet with reset := .held }
    (c.reports (List.replicate 400 (low, low))).countP Report.isReset = 1 := by
  intro c low
  have hlow : ∀ e ∈ List.replicate 400 (low, low), e.2.reset.asserted = true := by
    intro e he
    rw [List.eq_of_mem_replicate he]
    rfl
  have h0 : c.state.resetHold = 0 := rfl
  obtain ⟨h, -⟩ := reset_told_once h0 hlow
  rw [List.length_replicate] at h
  exact h.2 (by decide)

theorem reset_told_twice :
    let c := powerOn ⟨.sized, 255⟩
    let low : Bus := { Bus.quiet with reset := .held }
    c.state.resetHold = 0 ∧
      (c.reports (List.replicate 256 (low, low))).countP Report.isReset = 2 := by
  intro c low
  have hlow : ∀ e ∈ List.replicate 256 (low, low), e.2.reset.asserted = true := by
    intro e he
    rw [List.eq_of_mem_replicate he]
    rfl
  have h : (c.reports (List.replicate 256 (low, low))).countP Report.isReset =
      announced c.config.resetThreshold.toNat c.state.resetHold.toNat 256 := by
    rw [countP_reports hlow, List.length_replicate]
  have htwice : announced c.config.resetThreshold.toNat c.state.resetHold.toNat 256 = 2 := by
    decide
  exact ⟨rfl, h.trans htwice⟩

end Cpu

end Cmos6502
