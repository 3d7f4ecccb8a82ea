import Cmos6502.Proofs.NmiLatch
import Cmos6502.Proofs.Steady

namespace Cmos6502

/-- What a cycle brings: the byte on the wires at its end, and whether overflow has
been asked for since the cycle before. -/
structure Beat where
  data : Byte
  overflow : Bool
deriving DecidableEq

/-- The cycles of a run, which come on the edges that let the processor work. What
is asked for while it is held counts for the next of them. -/
def beats (asked : Bool) : List (Bus × Bus) → List Beat
  | [] => []
  | e :: es =>
    let asked := asked || e.1.setOverflow.asserted
    if e.1.ready.asserted then ⟨e.2.data, asked⟩ :: beats false es else beats asked es

namespace State

variable (s : State)

def raise (asked : Bool) : State :=
  { s with regs.p.overflow := s.regs.p.overflow || asked }

@[simp] theorem raise_false : s.raise false = s := by
  simp [raise]

@[simp] theorem raise_raise (a b : Bool) : (s.raise a).raise b = s.raise (a || b) := by
  simp [raise, Bool.or_assoc]

@[simp] theorem passedOver_raise (op : MicroOp) (asked : Bool) :
    op.passedOver (s.raise asked) = op.passedOver s := by
  cases op <;> rfl

theorem executed_reframe (policy : Policy) (op : MicroOp) (v : Byte) (q : Sequence) (k : Nat)
    (r : Requests) (hold : Byte) :
    (s.reframe q k r hold).executed policy op v =
      (s.executed policy op v).reframe q k r hold := by
  simp only [executed, MicroOp.complete_reframe]
  split <;> rfl

def Reframes (q : State) : Prop := ∃ seq k r hold, s = q.reframe seq k r hold

/-- The state as the first cycle of a sequence leaves it, less its step. -/
def begun (policy : Policy) (b : Beat) : State :=
  (s.raise b.overflow).executed policy s.currentOp b.data

variable {s} {q : State}

theorem reframes_sample {asked : Bool} (h : s.Reframes (q.raise asked)) (bus : Bus) :
    (s.sample bus).Reframes (q.raise (asked || bus.setOverflow.asserted)) := by
  obtain ⟨seq, k, r, hold, rfl⟩ := h
  refine ⟨seq, k, (((q.raise asked).reframe seq k r hold).sample bus).requests, hold, ?_⟩
  rw [← raise_raise]
  rfl

theorem Reframes.complete (h : s.Reframes q) (op : MicroOp) (v : Byte) :
    (op.complete s v).Reframes (op.complete q v) := by
  obtain ⟨seq, k, r, hold, rfl⟩ := h
  exact ⟨seq, k, r, hold, MicroOp.complete_reframe op q v seq k r hold⟩

theorem Reframes.transfer (h : s.Reframes q) (op : MicroOp) : op.transfer s = op.transfer q := by
  obtain ⟨seq, k, r, hold, rfl⟩ := h
  exact MicroOp.transfer_reframe op q seq k r hold

theorem Reframes.passedOver (h : s.Reframes q) (op : MicroOp) :
    op.passedOver s = op.passedOver q := by
  obtain ⟨seq, k, r, hold, rfl⟩ := h
  exact MicroOp.passedOver_reframe op q seq k r hold

theorem Reframes.executed (h : s.Reframes q) (policy : Policy) (op : MicroOp) (v : Byte) :
    (s.executed policy op v).Reframes (q.executed policy op v) := by
  obtain ⟨seq, k, r, hold, rfl⟩ := h
  exact ⟨seq, k, r, hold, executed_reframe q policy op v seq k r hold⟩

theorem Reframes.mode (h : s.Reframes q) (hseq : s.sequence = q.sequence) : s.mode = q.mode := by
  obtain ⟨seq, k, r, hold, rfl⟩ := h
  simp only [State.mode, hseq]
  rfl

theorem Reframes.trans {u : State} (h : s.Reframes u) (h' : u.Reframes q) : s.Reframes q := by
  obtain ⟨seq, k, r, hold, rfl⟩ := h
  obtain ⟨_, _, _, _, rfl⟩ := h'
  exact ⟨seq, k, r, hold, rfl⟩

end State

namespace MicroOp

theorem complete_received (op : MicroOp) (s t : State) (bus : Bus) :
    op.complete s (Cpu.received (op.transfer t) bus) = op.complete s bus.data := by
  cases op <;> rfl

def play (op : MicroOp) (s : State) (b : Beat) : State :=
  op.complete (s.raise b.overflow) b.data

/-- `ops` are carried out from `s` to the last of them, each that costs a cycle with
the beat of its own; they make the accesses `as` and leave `t`. -/
inductive Performs :
    List MicroOp → State → List Beat → List (MicroOp × Transfer) → State → Prop
  | done (s : State) : Performs [] s [] [] s
  | skip {op : MicroOp} {ops : List MicroOp} {s t : State} {l : List Beat}
      {as : List (MicroOp × Transfer)} :
      op.passedOver s = true → Performs ops s l as t → Performs (op :: ops) s l as t
  | cycle {op : MicroOp} {ops : List MicroOp} {s t : State} {b : Beat} {l : List Beat}
      {as : List (MicroOp × Transfer)} :
      op.passedOver s = false → Performs ops (op.play s b) l as t →
      Performs (op :: ops) s (b :: l) ((op, op.transfer (s.raise b.overflow)) :: as) t

variable {op : MicroOp} {ops rest : List MicroOp} {s t : State} {l : List Beat}
  {as : List (MicroOp × Transfer)}

theorem Performs.skipAll (hp : ∀ o ∈ ops, o.passedOver s = true) (h : Performs rest s l as t) :
    Performs (ops ++ rest) s l as t := by
  induction ops with
  | nil => exact h
  | cons o ops ih =>
    apply Performs.skip (hp o List.mem_cons_self)
    exact ih fun o' ho => hp o' (List.mem_cons_of_mem o ho)

theorem Performs.of_cons (h : Performs (op :: ops) s l as t) (ho : op.optional = false) :
    ∃ b l' as', l = b :: l' ∧ as = (op, op.transfer (s.raise b.overflow)) :: as' ∧
      Performs ops (op.play s b) l' as' t := by
  cases h with
  | skip hp _ =>
    rw [passedOver_of_not_optional ho] at hp
    cases hp
  | cycle _ h => exact ⟨_, _, _, rfl, rfl, h⟩

theorem Performs.of_append (h : Performs (ops ++ rest) s l as t) :
    ∃ l₁ l₂ as₁ as₂ u, l = l₁ ++ l₂ ∧ as = as₁ ++ as₂ ∧
      Performs ops s l₁ as₁ u ∧ Performs rest u l₂ as₂ t := by
  induction ops generalizing s l as with
  | nil => exact ⟨[], l, [], as, s, rfl, rfl, .done s, h⟩
  | cons op ops ih =>
    cases h with
    | skip hp h =>
      obtain ⟨l₁, l₂, as₁, as₂, u, hl, has, h₁, h₂⟩ := ih h
      exact ⟨l₁, l₂, as₁, as₂, u, hl, has, .skip hp h₁, h₂⟩
    | cycle hp h =>
      obtain ⟨l₁, l₂, as₁, as₂, u, rfl, rfl, h₁, h₂⟩ := ih h
      exact ⟨_ :: l₁, l₂, _ :: as₁, as₂, u, rfl, rfl, .cycle hp h₁, h₂⟩

theorem Performs.length_eq (h : Performs ops s l as t) : as.length = l.length := by
  induction h with
  | done => rfl
  | skip _ _ ih => exact ih
  | cycle _ _ ih => simp [ih]

theorem Performs.sublist (h : Performs ops s l as t) : (as.map Prod.fst).Sublist ops := by
  induction h with
  | done => exact .refl []
  | skip _ _ ih => exact ih.cons _
  | cycle _ _ ih => exact ih.cons_cons _

theorem Performs.map_fst (h : Performs ops s l as t) (hops : ∀ op ∈ ops, op.optional = false) :
    as.map Prod.fst = ops := by
  induction ops generalizing s l as with
  | nil =>
    cases h
    rfl
  | cons op ops ih =>
    obtain ⟨b, l', as', rfl, rfl, h'⟩ := h.of_cons (hops op List.mem_cons_self)
    simp [ih h' fun o ho => hops o (List.mem_cons_of_mem op ho)]

end MicroOp

namespace Cpu

def access (c : Cpu) (bus : Bus) : Option (MicroOp × Transfer) := (c.drive bus).1.inFlight

def collect {α : Type} (f : Cpu → Bus → Option α) : Cpu → List (Bus × Bus) → List α
  | _, [] => []
  | c, e :: es => (f c e.1).toList ++ collect f (c.edge e.1 e.2) es

def accesses (c : Cpu) (es : List (Bus × Bus)) : List (MicroOp × Transfer) :=
  c.collect access es

def returns (c : Cpu) (e : Bus × Bus) : Bool :=
  c.state.step != 0 && (c.edge e.1 e.2).state.step == 0

/-- The edges are those up to the first on which the step counter comes back to
zero, and reset is recognised on none of them. -/
def Spans : Cpu → List (Bus × Bus) → Prop
  | _, [] => False
  | c, e :: es =>
    c.recognisesReset e.2 = false ∧ if c.returns e then es = [] else (c.edge e.1 e.2).Spans es

instance decidableSpans : (c : Cpu) → (es : List (Bus × Bus)) → Decidable (c.Spans es)
  | _, [] => inferInstanceAs (Decidable False)
  | c, e :: es =>
    have := decidableSpans (c.edge e.1 e.2) es
    inferInstanceAs (Decidable (c.recognisesReset e.2 = false ∧
      if c.returns e then es = [] else (c.edge e.1 e.2).Spans es))

variable {c : Cpu} {e : Bus × Bus} {es : List (Bus × Bus)}

theorem returns_of_step_zero (h : c.state.step = 0) (e : Bus × Bus) : c.returns e = false := by
  simp [returns, h]

theorem spans_cons_of_returns (h : c.returns e = true) :
    c.Spans (e :: es) ↔ c.recognisesReset e.2 = false ∧ es = [] := by
  rw [Spans, if_pos h]

theorem spans_cons (h : c.returns e = false) :
    c.Spans (e :: es) ↔ c.recognisesReset e.2 = false ∧ (c.edge e.1 e.2).Spans es := by
  rw [Spans, if_neg (by rw [h]; exact Bool.false_ne_true)]

theorem accesses_cons (c : Cpu) (e : Bus × Bus) (es : List (Bus × Bus)) :
    c.accesses (e :: es) = (c.access e.1).toList ++ (c.edge e.1 e.2).accesses es := rfl

theorem runs_eq_ready (hs : c.state.suspended = false) (bus : Bus) :
    c.runs bus = bus.ready.asserted := by
  have h := runs_of_running hs bus bus.inputs
  rwa [Bus.withInputs_inputs] at h

theorem access_of_runs {bus : Bus} (hw : c.state.WellFormed) (h : c.runs bus = true) :
    c.access bus =
      some ((c.state.watch bus).currentOp,
        (c.state.watch bus).currentOp.transfer (c.state.watch bus)) := by
  rw [access, drive_of_runs hw h]
  rfl

theorem access_of_not_runs {bus : Bus} (h : c.runs bus = false) : c.access bus = none := by
  rw [access, drive_of_not_runs h]
  rfl

theorem access_of_running (hw : c.state.WellFormed) (hs : c.state.suspended = false) (bus : Bus) :
    c.access bus = if bus.ready.asserted then
      some (c.state.currentOp, c.state.currentOp.transfer (c.state.sample bus)) else none := by
  have hrun := runs_eq_ready hs bus
  cases hready : bus.ready.asserted with
  | false => exact access_of_not_runs (hrun.trans hready)
  | true =>
    rw [access_of_runs hw (hrun.trans hready), State.watch_of_running hs]
    rfl

theorem edge_of_held (hs : c.state.suspended = false) (hr : c.recognisesReset e.2 = false)
    (hready : e.1.ready.asserted = false) :
    c.edge e.1 e.2 = c.idles ((c.state.sample e.1).withHold (c.countReset e.2)) := by
  have hrun := (runs_eq_ready hs e.1).trans hready
  rw [edge_of_not_runs hrun hr, State.watch_of_running hs]

theorem edge_of_ready (hw : c.state.WellFormed) (hs : c.state.suspended = false)
    (hr : c.recognisesReset e.2 = false) (hready : e.1.ready.asserted = true) :
    let s := c.state.sample e.1
    let op := c.state.currentOp
    c.edge e.1 e.2 =
      c.completes ((s.finish c.config.policy op (received (op.transfer s) e.2)).withHold
        (c.countReset e.2)) := by
  have hrun := (runs_eq_ready hs e.1).trans hready
  rw [edge_of_runs hw hrun hr, State.watch_of_running hs]
  rfl

/-- The current micro-op carried out on an edge, before the step counter moves on. -/
def carriedOut (c : Cpu) (e : Bus × Bus) : State :=
  c.state.currentOp.complete (c.state.sample e.1) e.2.data

theorem state_edge_of_held (hs : c.state.suspended = false) (hr : c.recognisesReset e.2 = false)
    (hready : e.1.ready.asserted = false) :
    (c.edge e.1 e.2).state.Reframes (c.state.sample e.1) ∧
      (c.edge e.1 e.2).state.sequence = c.state.sequence ∧
      (c.edge e.1 e.2).state.step = c.state.step ∧
      (c.edge e.1 e.2).state.suspended = false := by
  rw [edge_of_held hs hr hready]
  exact ⟨⟨_, _, _, _, rfl⟩, rfl, rfl, hs⟩

theorem state_edge_of_ready (hw : c.state.WellFormed) (hs : c.state.suspended = false)
    (hr : c.recognisesReset e.2 = false) (hready : e.1.ready.asserted = true)
    (h0 : c.state.step = 0) :
    let u := (c.state.sample e.1).executed c.config.policy c.state.currentOp e.2.data
    (c.edge e.1 e.2).state.Reframes u ∧
      (c.edge e.1 e.2).state.sequence = c.state.sequence ∧
      (c.edge e.1 e.2).state.step = 0 + 1 := by
  intro u
  have hread : received (c.state.currentOp.transfer (c.state.sample e.1)) e.2 = e.2.data := by
    have ht := State.transfer_currentOp_of_step_zero (s := c.state.sample e.1) h0
    exact congrArg (received · e.2) ht
  have hzero : u.step = 0 := (State.step_executed _ _ _ _).trans h0
  have hseq : u.sequence = c.state.sequence := State.sequence_executed _ _ _ _
  have hstate : (c.edge e.1 e.2).state = (u.atStep 1).withHold (c.countReset e.2) := by
    rw [edge_of_ready hw hs hr hready, completes, State.finish, hread,
      State.advance_of_step_zero u hzero]
  rw [hstate]
  exact ⟨⟨_, _, _, _, rfl⟩, hseq, rfl⟩

theorem step_edge_of_not_returns (hw : c.state.WellFormed) (hs : c.state.suspended = false)
    (hr : c.recognisesReset e.2 = false) (hready : e.1.ready.asserted = true)
    (hret : c.returns e = false) : (c.edge e.1 e.2).state.step ≠ 0 := by
  by_cases h0 : c.state.step = 0
  · rw [(state_edge_of_ready hw hs hr hready h0).2.2]
    exact Nat.succ_ne_zero 0
  · intro hzero
    simp [returns, h0, hzero] at hret

/-- What an edge can do to a processor that is to carry out micro-op `k`: hold it,
end the sequence, or let it go on to micro-op `j`. -/
inductive Moves (c : Cpu) (k : Nat) (e : Bus × Bus) : Prop
  | held : e.1.ready.asserted = false →
      (c.edge e.1 e.2).state.step = k + 1 → (c.edge e.1 e.2).state.mode = c.state.mode →
      (c.edge e.1 e.2).state.Reframes (c.state.sample e.1) → Moves c k e
  | ended : e.1.ready.asserted = true →
      (∀ o ∈ c.state.mode.microOps.drop (k + 1), o.passedOver (c.carriedOut e) = true) →
      (c.edge e.1 e.2).state.step = 0 → Moves c k e
  | onward (j : Nat) (skipped : List MicroOp) : e.1.ready.asserted = true →
      c.state.mode.microOps.drop (k + 1) = skipped ++ c.state.mode.microOps.drop j →
      (∀ o ∈ skipped, o.passedOver (c.carriedOut e) = true) → k < j →
      (c.edge e.1 e.2).state.step = j + 1 → (c.edge e.1 e.2).state.mode = c.state.mode →
      (c.edge e.1 e.2).state.Reframes (c.carriedOut e) → Moves c k e

theorem moves (hw : c.state.WellFormed) {k : Nat} (hk : c.state.step = k + 1)
    (hr : c.recognisesReset e.2 = false) : c.Moves k e := by
  have hs : c.state.suspended = false := hw.running (by rw [hk]; exact Nat.succ_ne_zero k)
  cases hready : e.1.ready.asserted with
  | false =>
    have hedge := edge_of_held hs hr hready
    refine .held hready ?_ ?_ ?_
    · rw [hedge]
      exact hk
    · rw [hedge]
      rfl
    · rw [hedge]
      exact ⟨_, _, _, _, rfl⟩
  | true =>
    let u := c.carriedOut e
    have hexec : (c.state.sample e.1).executed c.config.policy c.state.currentOp
        (received (c.state.currentOp.transfer (c.state.sample e.1)) e.2) = u := by
      have h := State.executed_eq_complete (s := c.state.sample e.1) hk c.config.policy
        (received (c.state.currentOp.transfer (c.state.sample e.1)) e.2)
      exact h.trans (MicroOp.complete_received _ _ _ _)
    have hstate : (c.edge e.1 e.2).state = u.advance.withHold (c.countReset e.2) := by
      rw [edge_of_ready hw hs hr hready, completes, State.finish, hexec]
    have hmode : u.mode = c.state.mode := MicroOp.mode_complete _ _ _
    have hstep : u.step = k + 1 := (MicroOp.step_complete _ _ _).trans hk
    obtain ⟨hall, hb⟩ | ⟨skipped, op, rest, hd, hskip, -, ha⟩ := State.advance_cases u
    · rw [hmode, hstep] at hall
      refine .ended hready hall ?_
      rw [hstate, hb]
      exact State.step_boundary u
    · rw [hmode, hstep] at hd
      rw [hstep] at ha
      have hrest : c.state.mode.microOps.drop (k + 1 + skipped.length) = op :: rest := by
        rw [← List.drop_drop, hd, List.drop_left]
      refine .onward (k + 1 + skipped.length) skipped hready ?_ hskip (by omega) ?_ ?_ ?_
      · rw [hd, hrest]
      · rw [hstate, ha]
        rfl
      · rw [hstate, ha]
        exact hmode
      · rw [hstate, ha]
        exact ⟨_, _, _, _, rfl⟩

theorem drop_microOps (hw : c.state.WellFormed) {k : Nat} (hk : c.state.step = k + 1) :
    c.state.mode.microOps.drop k =
      c.state.currentOp :: c.state.mode.microOps.drop (k + 1) := by
  rw [List.drop_eq_getElem?_toList_append, State.currentOp_mem_microOps c.state hk hw.step_lt]
  rfl

theorem Spans.performs_rest (h : c.Spans es) (hc : c.Reachable) {k : Nat}
    (hk : c.state.step = k + 1) {q : State} {asked : Bool}
    (hq : c.state.Reframes (q.raise asked)) :
    ∃ t, MicroOp.Performs (c.state.mode.microOps.drop k) q (beats asked es) (c.accesses es) t := by
  -- `q` is the state that the last cycle has left, and `asked` what was asked for since then;
  -- edges that hold the processor change only `asked`
  induction es generalizing c k q asked with
  | nil => exact h.elim
  | cons e es ih =>
    have hr : c.recognisesReset e.2 = false := h.1
    have hw := hc.wellFormed.state
    have hs : c.state.suspended = false := hw.running (by rw [hk]; exact Nat.succ_ne_zero k)
    let op := c.state.currentOp
    let b : Beat := ⟨e.2.data, asked || e.1.setOverflow.asserted⟩
    have hsample : (c.state.sample e.1).Reframes (q.raise b.overflow) :=
      State.reframes_sample hq e.1
    have hplay : (c.carriedOut e).Reframes (op.play q b) := hsample.complete op e.2.data
    have hpass : op.passedOver q = false := by
      rw [← State.passedOver_raise q op asked, ← hq.passedOver]
      exact hw.performs
    have goesOn {j : Nat} (hstep : (c.edge e.1 e.2).state.step = j + 1) :
        (c.edge e.1 e.2).Spans es := by
      have hret : c.returns e = false := by simp [returns, hstep]
      exact ((spans_cons hret).1 h).2
    rw [accesses_cons, beats, access_of_running hw hs e.1]
    obtain ⟨hready, hstep, hmode, hframe⟩ | ⟨hready, hskip, hstep⟩ |
      ⟨j, skipped, hready, hd, hskip, -, hstep, hmode, hframe⟩ := moves hw hk hr
    · obtain ⟨t, ht⟩ := ih (goesOn hstep) (hc.edge e.1 e.2) hstep (hframe.trans hsample)
      rw [hready, ← hmode]
      exact ⟨t, ht⟩
    · have hret : c.returns e = true := by simp [returns, hk, hstep]
      obtain ⟨-, rfl⟩ := (spans_cons_of_returns hret).1 h
      have hend : MicroOp.Performs (c.state.mode.microOps.drop (k + 1) ++ []) (op.play q b) [] []
          (op.play q b) :=
        .skipAll (fun o ho => (hplay.passedOver o).symm.trans (hskip o ho)) (.done _)
      rw [List.append_nil] at hend
      rw [hready, drop_microOps hw hk, hsample.transfer]
      exact ⟨_, .cycle hpass hend⟩
    · have hnext : (c.edge e.1 e.2).state.Reframes ((op.play q b).raise false) := by
        rw [State.raise_false]
        exact hframe.trans hplay
      obtain ⟨t, ht⟩ := ih (goesOn hstep) (hc.edge e.1 e.2) hstep hnext
      rw [hmode] at ht
      rw [hready, drop_microOps hw hk, hsample.transfer, hd]
      refine ⟨t, .cycle hpass (.skipAll ?_ ht)⟩
      exact fun o ho => (hplay.passedOver o).symm.trans (hskip o ho)

/-- The first access of a run is that of a processor `d` on edge `e`, with beat `b`,
and the edges `rest` are left. `q` is the state as it was before the edges that held
the processor. -/
structure Begins (c : Cpu) (q : State) (asked : Bool) (es : List (Bus × Bus)) (b : Beat)
    (d : Cpu) (e : Bus × Bus) (rest : List (Bus × Bus)) : Prop where
  beats_eq : beats asked es = b :: beats false rest
  collect_eq : ∀ {α : Type} (f : Cpu → Bus → Option α),
    (∀ c bus, c.access bus = none → f c bus = none) →
      c.collect f es = (f d e.1).toList ++ (d.edge e.1 e.2).collect f rest
  reachable : d.Reachable
  running : d.state.suspended = false
  step_eq : d.state.step = 0
  op_eq : d.state.currentOp = q.currentOp
  ready : e.1.ready.asserted = true
  frame : (d.state.sample e.1).Reframes (q.raise b.overflow)
  spans : (d.edge e.1 e.2).Spans rest
  step_edge : (d.edge e.1 e.2).state.step = 0 + 1
  mode_edge : (d.edge e.1 e.2).state.mode = (q.begun c.config.policy b).mode
  frame_edge : (d.edge e.1 e.2).state.Reframes (q.begun c.config.policy b)

theorem Spans.begins_of_held (h : c.Spans es) (hc : c.Reachable)
    (hs : c.state.suspended = false) (h0 : c.state.step = 0) {q : State} {asked : Bool}
    (hq : c.state.Reframes (q.raise asked)) (hzero : q.step = 0)
    (hseq : c.state.sequence = q.sequence) :
    ∃ b d e rest, c.Begins q asked es b d e rest := by
  induction es generalizing c asked with
  | nil => exact h.elim
  | cons e es ih =>
    obtain ⟨hr, hspans⟩ := (spans_cons (returns_of_step_zero h0 e)).1 h
    have hw := hc.wellFormed.state
    let b : Beat := ⟨e.2.data, asked || e.1.setOverflow.asserted⟩
    have hsample : (c.state.sample e.1).Reframes (q.raise b.overflow) :=
      State.reframes_sample hq e.1
    cases hready : e.1.ready.asserted with
    | false =>
      obtain ⟨hframe, hseq', hstep, hsus⟩ := state_edge_of_held hs hr hready
      have hconfig : (c.edge e.1 e.2).config = c.config := by rw [edge_of_held hs hr hready]; rfl
      have hnone : c.access e.1 = none := by rw [access_of_running hw hs e.1, hready]; rfl
      obtain ⟨b', d, e', rest, hd⟩ := ih hspans (hc.edge e.1 e.2) hsus (hstep.trans h0)
        (hframe.trans hsample) (hseq'.trans hseq)
      refine ⟨b', d, e', rest, { hd with
        beats_eq := ?_, collect_eq := ?_, mode_edge := ?_, frame_edge := ?_ }⟩
      · rw [beats, hready]
        exact hd.beats_eq
      · intro α f hf
        rw [collect, hf c e.1 hnone]
        exact hd.collect_eq f hf
      · rw [← hconfig]
        exact hd.mode_edge
      · rw [← hconfig]
        exact hd.frame_edge
    | true =>
      obtain ⟨hframe, hseq', hstep⟩ := state_edge_of_ready hw hs hr hready h0
      have hop : c.state.currentOp = q.currentOp := by
        rw [State.currentOp_of_step_zero _ h0, State.currentOp_of_step_zero _ hzero, hseq]
      have hbegun : (c.edge e.1 e.2).state.Reframes (q.begun c.config.policy b) := by
        apply hframe.trans
        rw [hop]
        exact hsample.executed c.config.policy q.currentOp e.2.data
      have hmode : (c.edge e.1 e.2).state.mode = (q.begun c.config.policy b).mode := by
        apply hbegun.mode
        rw [hseq', hseq]
        exact (State.sequence_executed (q.raise b.overflow) _ _ _).symm
      refine ⟨b, c, e, es, ?_⟩
      exact {
        beats_eq := by rw [beats, hready]; rfl
        collect_eq := fun f _ => rfl
        reachable := hc
        running := hs
        step_eq := h0
        op_eq := hop
        ready := hready
        frame := hsample
        spans := hspans
        step_edge := hstep
        mode_edge := hmode
        frame_edge := hbegun }

theorem Spans.begins (h : c.Spans es) (hc : c.Reachable) (hs : c.state.suspended = false)
    (h0 : c.state.step = 0) : ∃ b d e rest, c.Begins c.state false es b d e rest := by
  apply h.begins_of_held hc hs h0 _ h0 rfl
  rw [State.raise_false]
  exact ⟨_, _, _, _, rfl⟩

section Begins

variable {q : State} {asked : Bool} {b : Beat} {d : Cpu} {rest : List (Bus × Bus)}

theorem Begins.access_eq (h : c.Begins q asked es b d e rest) (hzero : q.step = 0) :
    d.access e.1 = some (q.currentOp, .read q.regs.pc) := by
  rw [access_of_running h.reachable.wellFormed.state h.running, h.ready, if_pos rfl,
    h.frame.transfer, h.op_eq]
  exact congrArg (fun t => some (q.currentOp, t))
    (State.transfer_currentOp_of_step_zero (s := q.raise b.overflow) hzero)

theorem Begins.accesses_eq (h : c.Begins q asked es b d e rest) (hzero : q.step = 0) :
    c.accesses es = (q.currentOp, .read q.regs.pc) :: (d.edge e.1 e.2).accesses rest := by
  rw [accesses, h.collect_eq access fun _ _ => id, h.access_eq hzero]
  rfl

theorem Begins.performs (h : c.Begins q asked es b d e rest) :
    ∃ t, MicroOp.Performs (q.begun c.config.policy b).mode.microOps (q.begun c.config.policy b)
      (beats false rest) ((d.edge e.1 e.2).accesses rest) t := by
  have hframe := h.frame_edge
  rw [← State.raise_false (q.begun c.config.policy b)] at hframe
  obtain ⟨t, ht⟩ := h.spans.performs_rest (h.reachable.edge e.1 e.2) h.step_edge hframe
  rw [List.drop_zero, h.mode_edge] at ht
  exact ⟨t, ht⟩

end Begins

theorem Spans.performs (h : c.Spans es) (hc : c.Reachable) (hs : c.state.suspended = false)
    (h0 : c.state.step = 0) :
    ∃ b l as t, beats false es = b :: l ∧
      c.accesses es = (c.state.currentOp, .read c.state.regs.pc) :: as ∧
      MicroOp.Performs (c.state.begun c.config.policy b).mode.microOps
        (c.state.begun c.config.policy b) l as t := by
  obtain ⟨b, d, e, rest, hd⟩ := h.begins hc hs h0
  obtain ⟨t, ht⟩ := hd.performs
  exact ⟨b, _, _, t, hd.beats_eq, hd.accesses_eq h0, ht⟩

theorem Spans.performs_instruction (h : c.Spans es) (hc : c.Reachable)
    (hs : c.state.suspended = false) (h0 : c.state.step = 0)
    (hq : c.state.sequence = .instruction) :
    ∃ b l as s t, beats false es = b :: l ∧
      c.accesses es = (.fetchOpcode, .read c.state.regs.pc) :: as ∧
      s.instruction = .decode c.config.policy b.data ∧
      s.regs = { (c.state.raise b.overflow).regs with pc := c.state.regs.pc + 1 } ∧
      s.latches = { Latches.clear with data := b.data } ∧
      MicroOp.Performs s.instruction.mode.microOps s l as t := by
  obtain ⟨b, l, as, t, hb, ha, hp⟩ := h.performs hc hs h0
  have hop : c.state.currentOp = .fetchOpcode := by
    rw [State.currentOp_of_step_zero _ h0, if_pos hq]
  let s := c.state.begun c.config.policy b
  have hs : s = ((c.state.raise b.overflow).bumpPc.withData b.data).latchOpcode c.config.policy
      b.data := by
    change c.state.begun c.config.policy b = _
    rw [State.begun, hop]
    rfl
  have hmode : s.mode = s.instruction.mode := by
    have hseq : s.sequence = .instruction := (State.sequence_executed _ _ _ _).trans hq
    rw [State.mode, hseq]
  have hlatches : s.latches = { Latches.clear with data := b.data } := by
    rw [hs, ← hc.wellFormed.state.clear h0]
    rfl
  rw [hop] at ha
  exact ⟨b, l, as, s, t, hb, ha, by rw [hs]; rfl, by rw [hs]; rfl, hlatches, hmode ▸ hp⟩

theorem Spans.performs_entry (h : c.Spans es) (hc : c.Reachable)
    (hs : c.state.suspended = false) (h0 : c.state.step = 0)
    (hq : c.state.sequence ≠ .instruction) :
    ∃ b l as t, beats false es = b :: l ∧
      c.accesses es = (.dummyProgram, .read c.state.regs.pc) :: as ∧
      MicroOp.Performs c.state.mode.microOps (c.state.raise b.overflow) l as t := by
  obtain ⟨b, l, as, t, hb, ha, hp⟩ := h.performs hc hs h0
  have hop : c.state.currentOp = .dummyProgram := by
    rw [State.currentOp_of_step_zero _ h0, if_neg hq]
  have hbegun : c.state.begun c.config.policy b = c.state.raise b.overflow := by
    rw [State.begun, hop]
    rfl
  rw [hop] at ha
  rw [hbegun] at hp
  exact ⟨b, l, as, t, hb, ha, hp⟩

end Cpu

end Cmos6502
