import Mathlib.Data.List.Chain
import Cmos6502.Proofs.Reports

namespace Cmos6502

namespace State

variable {s : State}

theorem owed_eq_zero_iff : s.owed = 0 ↔ s.requests.nmi = false ∧ s.sequence ≠ .nmi := by
  rw [owed, Nat.add_eq_zero_iff, Bool.toNat_eq_zero, Bool.toNat_eq_zero, decide_eq_false_iff_not]

theorem unentered_finish (h0 : s.step = 0) {policy : Policy} {v : Byte} {q : Sequence} {pc : Word}
    {p : Flags} : .entered q pc p ∉ s.finishReports policy s.currentOp v := by
  intro h
  obtain h | h := List.mem_append.1 h
  · obtain h | h | h := mem_executedReports h <;> cases h
  · have hstep : (s.executed policy s.currentOp v).step = 0 := by
      rw [step_executed, h0]
    rw [advanceReports, if_neg] at h
    · cases h
    · rw [List.isEmpty_iff]
      exact remaining_ne_nil _ hstep

end State

namespace Cpu

variable {c : Cpu} {e f : Bus × Bus} {es : List (Bus × Bus)}

def NoFall (e f : Bus × Bus) : Prop := f.1.nmi.asserted = true → e.1.nmi.asserted = true

structure Spared (c : Cpu) (e : Bus × Bus) : Prop where
  unlatched : (c.edge e.1 e.2).state.requests.nmi = false
  unentered : (c.edge e.1 e.2).state.sequence ≠ .nmi
  untold : ∀ pc p, .entered .nmi pc p ∉ c.edgeReports e

/-- No non-maskable interrupt is owed, and a line that was low on the edge before is known to
have been. -/
structure Clear (c : Cpu) (before : Bus × Bus) : Prop where
  owed : c.state.owed = 0
  seen : before.1.nmi.asserted = true → c.state.requests.nmiHeld = true

theorem owed_of_recognised (hr : c.recognisesReset f.2 = true) :
    (c.edge f.1 f.2).state.owed = 0 := by
  rw [edge_of_recognised hr]
  rfl

theorem owed_of_no_fall (hw : c.WellFormed) (howed : c.state.owed = 0)
    (hfall : c.seesFall f.1 = false) : (c.edge f.1 f.2).state.owed = 0 := by
  cases hr : c.recognisesReset f.2 with
  | true => exact owed_of_recognised hr
  | false =>
    have hsum : (c.servesNmi f.1).toNat + (c.edge f.1 f.2).state.owed =
        c.state.owed + (c.noticesNmi f.1).toNat := edge_owed hw hr
    rw [noticesNmi, hfall, howed] at hsum
    exact (Nat.add_eq_zero_iff.1 hsum).2

theorem Clear.edge (h : c.Clear e) (hw : c.WellFormed) (hf : NoFall e f) :
    c.Spared f ∧ (c.edge f.1 f.2).Clear f := by
  have hfall : c.seesFall f.1 = false := by
    cases hl : f.1.nmi.asserted with
    | false => rw [seesFall, hl, Bool.and_false, Bool.false_and]
    | true => rw [seesFall, h.seen (hf hl), Bool.not_true, Bool.and_false]
  -- a level already seen is no fall, so nothing new is owed
  have howed : (c.edge f.1 f.2).state.owed = 0 := owed_of_no_fall hw h.owed hfall
  obtain ⟨hnmi, hseq⟩ := State.owed_eq_zero_iff.1 howed
  refine ⟨⟨hnmi, hseq, fun pc p ht => ?_⟩, ⟨howed, fun hl => ?_⟩⟩
  · obtain ht | ht := warranted_edge ht
    · cases ht
    · have hpending : c.nmiPending f.1 = false := by
        rw [nmiPending, hfall, (State.owed_eq_zero_iff.1 h.owed).1, Bool.false_or]
      rw [Report.Warranted, hpending] at ht
      cases ht
  · rw [nmiHeld_edge hw, hl, h.seen (hf hl), ite_self]

theorem Clear.along (h : c.Clear e) (hc : c.Reachable) (hes : (e :: es).IsChain NoFall) :
    c.Along Spared es := by
  induction es generalizing c e with
  | nil => exact trivial
  | cons f es ih =>
    obtain ⟨hf, hes'⟩ := List.isChain_cons_cons.1 hes
    obtain ⟨hspared, hclear⟩ := h.edge hc.wellFormed hf
    exact ⟨hspared, ih hclear (hc.edge f.1 f.2) hes'⟩

theorem unentered_of_step_zero (hw : c.state.WellFormed) (hs : c.state.suspended = false)
    (h0 : c.state.step = 0) {q : Sequence} {pc : Word} {p : Flags} :
    .entered q pc p ∉ c.edgeReports f := by
  intro h
  have hwatch : c.state.watch f.1 = c.state.sample f.1 := State.watch_of_running hs f.1
  rw [edgeReports, driveReports_of_running hw hs, List.nil_append] at h
  obtain h | h := List.mem_append.1 h
  · cases hrun : c.runs f.1 with
    | false =>
      rw [drive_of_not_runs hrun] at h
      cases h
    | true =>
      rw [drive_of_runs hw hrun, hwatch] at h
      have hstep : (c.state.sample f.1).step = 0 := h0
      exact State.unentered_finish hstep h
  · cases isReset_of_mem_resetReports h

theorem clear_of_recognised (hc : c.Reachable) (hs : c.state.suspended = false)
    (h0 : c.state.step = 0) (hr : c.recognisesReset f.2 = true) :
    c.Spared f ∧ (c.edge f.1 f.2).Clear f := by
  have hw := hc.wellFormed
  have howed : (c.edge f.1 f.2).state.owed = 0 := owed_of_recognised hr
  obtain ⟨hnmi, hseq⟩ := State.owed_eq_zero_iff.1 howed
  have hstop : c.state.stopped = false := (Bool.or_eq_false_iff.1 hs).1
  refine ⟨⟨hnmi, hseq, fun _ _ => unentered_of_step_zero hw.state hs h0⟩, ⟨howed, fun hl => ?_⟩⟩
  rw [nmiHeld_edge hw, hstop, hl]
  rfl

theorem along_spared_iff (hc : c.Reachable) (hs : c.state.suspended = false)
    (h0 : c.state.step = 0) (howed : c.state.owed = 0) (hes : es.IsChain NoFall) :
    c.Along Spared es ↔ (c.state.requests.nmiHeld = false →
      ∀ f ∈ es.head?, f.1.nmi.asserted = true → c.recognisesReset f.2 = true) := by
  constructor
  · rintro hall hunheld f hf hl
    obtain ⟨es', rfl⟩ := List.head?_eq_some_iff.1 hf
    by_contra hr
    have hfall : c.seesFall f.1 = true := by
      rw [seesFall, (Bool.or_eq_false_iff.1 hs).1, hl, hunheld]
      rfl
    have hpos : 0 < (c.edge f.1 f.2).state.owed :=
      owed_of_seesFall hc.wellFormed (Bool.eq_false_iff.2 hr) hfall
    rw [State.owed_eq_zero_iff.2 ⟨hall.1.unlatched, hall.1.unentered⟩] at hpos
    exact Nat.lt_irrefl 0 hpos
  · intro hfirst
    cases es with
    | nil => exact trivial
    | cons f es =>
      have hrest : c.Spared f ∧ (c.edge f.1 f.2).Clear f := by
        cases hheld : c.state.requests.nmiHeld with
        | true => exact Clear.edge ⟨howed, fun _ => hheld⟩ hc.wellFormed id
        | false =>
          cases hl : f.1.nmi.asserted with
          | true => exact clear_of_recognised hc hs h0 (hfirst hheld f rfl hl)
          | false =>
            have hclear : c.Clear f := ⟨howed, fun h => by rw [hl] at h; cases h⟩
            exact hclear.edge hc.wellFormed id
      exact ⟨hrest.1, hrest.2.along (hc.edge f.1 f.2) hes⟩

/-- No non-maskable interrupt outlives a reset, and only a fall of the line brings another,
except that a processor that reset finds stopped may not know that the line is low: it
takes that for a fall if it is let go on the very next edge. -/
theorem spared_after_reset (hc : c.Reachable) (hr : c.recognisesReset e.2 = true)
    (hes : (e :: es).IsChain NoFall) :
    let d := c.edge e.1 e.2
    d.state.requests.nmi = false ∧ d.state.sequence = .reset ∧
      (d.Along Spared es ↔
        ¬ (c.state.stopped = true ∧ c.state.requests.nmiHeld = false ∧
          ∃ f ∈ es.head?, f.1.nmi.asserted = true ∧ d.Unreset f)) := by
  intro d
  obtain ⟨hold, hstate⟩ : ∃ hold, d.state = resetState (c.working e.1 e.2).state hold :=
    ⟨_, congrArg Cpu.state (edge_of_recognised hr)⟩
  have hspared : d.Along Spared es ↔ (d.state.requests.nmiHeld = false →
      ∀ f ∈ es.head?, f.1.nmi.asserted = true → d.recognisesReset f.2 = true) := by
    apply along_spared_iff (hc.edge e.1 e.2) _ _ _ hes.tail
    all_goals rw [hstate]; rfl
  refine ⟨by rw [hstate]; rfl, by rw [hstate]; rfl, hspared.trans ?_⟩
  rw [nmiHeld_edge hc.wellFormed]
  cases hstop : c.state.stopped with
  | true => simp [Unreset, d]
  | false =>
    -- a processor that was not stopped has seen the level on the edge of the reset
    simp only [Bool.false_eq_true, if_false, false_and, not_false_iff, iff_true]
    intro hhigh f hf hl
    obtain ⟨es', rfl⟩ := List.head?_eq_some_iff.1 hf
    rw [(List.isChain_cons_cons.1 hes).1 hl] at hhigh
    cases hhigh

theorem spared_after_reset_held :
    let stp : Bus := { Bus.quiet with data := 0xDB }
    let both : Bus := { Bus.quiet with nmi := .held, reset := .held }
    let low : Bus := { Bus.quiet with nmi := .held, data := 0xEA }
    let stopped := ((powerOn .standard).startAt .powerOn).after (List.replicate 3 (stp, stp))
    let d := (stopped.edge both both).edge both both
    stopped.state.stopped = true ∧ stopped.state.requests.nmiHeld = false ∧
      d.state.sequence = .reset ∧ d.Along Spared ((both, both) :: List.replicate 100 (low, low)) := by
  intro stp both low stopped d
  have hc : (stopped.edge both both).Reachable :=
    (Reachable.after (.startAt _ (.powerOn _)) _).edge both both
  have hr : (stopped.edge both both).recognisesReset both = true := by decide +kernel
  have hagain : d.recognisesReset both = true := by decide +kernel
  have hstopped : stopped.state.stopped = true := by decide +kernel
  have hunheld : stopped.state.requests.nmiHeld = false := by decide +kernel
  have hlow : ∀ e ∈ (both, both) :: (both, both) :: List.replicate 100 (low, low),
      e.1.nmi.asserted = true := by
    simp only [List.forall_mem_cons, List.mem_replicate]
    exact ⟨rfl, rfl, fun _ h => by rw [h.2]; rfl⟩
  clear_value stopped both low
  have hes : ((both, both) :: (both, both) :: List.replicate 100 (low, low)).IsChain NoFall :=
    List.Pairwise.isChain (List.pairwise_iff_forall_sublist.2 fun h _ =>
      hlow _ (h.subset List.mem_cons_self))
  obtain ⟨-, hseq, hspared⟩ := spared_after_reset (e := (both, both)) hc hr hes
  refine ⟨hstopped, hunheld, hseq, hspared.2 ?_⟩
  rintro ⟨-, -, f, hf, -, hun⟩
  obtain rfl := Option.some.inj hf
  have hclash := hagain.symm.trans hun
  cases hclash

/-- Let go on the edge after the one that recognises reset, a processor that was stopped takes
the line that has been low all along for a fall, and enters the interrupt. -/
theorem stale_level_survives_reset :
    let stp : Bus := { Bus.quiet with data := 0xDB }
    let both : Bus := { Bus.quiet with nmi := .held, reset := .held }
    let low : Bus := { Bus.quiet with nmi := .held, data := 0xEA }
    let stopped := ((powerOn .standard).startAt .powerOn).after (List.replicate 3 (stp, stp))
    let c := stopped.edge both both
    let d := c.edge both both
    c.recognisesReset both = true ∧ ¬ d.Spared (low, low) ∧
      (d.edge low low).state.requests.nmi = true ∧
      (d.after (List.replicate 7 (low, low))).state.sequence = .nmi := by
  intro stp both low stopped c d
  have hr : c.recognisesReset both = true := by decide +kernel
  have hnmi : (d.edge low low).state.requests.nmi = true := by decide +kernel
  have hseq : (d.after (List.replicate 7 (low, low))).state.sequence = .nmi := by decide +kernel
  clear_value d low
  refine ⟨hr, fun h => ?_, hnmi, hseq⟩
  have hclash := hnmi.symm.trans h.unlatched
  cases hclash

end Cpu

end Cmos6502
