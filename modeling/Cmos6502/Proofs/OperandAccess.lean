import Cmos6502.Proofs.CycleCount
import Cmos6502.Proofs.SharedBus

namespace Cmos6502

theorem Word.toNat_low (w : Word) : w.low.toNat = w.toNat % 256 := by
  simp [low]

theorem Word.toNat_high (w : Word) : w.high.toNat = w.toNat / 256 := by
  have hw := w.isLt
  rw [high, BitVec.extractLsb'_toNat, Nat.shiftRight_eq_div_pow]
  omega

/-- Adding a byte leaves the page exactly when it carries out of the low byte, also
past the top of the address space. -/
theorem Word.leaves_page_iff (w : Word) (b : Byte) :
    (!w.samePage (w + b.toWord)) = decide (256 ≤ w.low.toNat + b.toNat) := by
  have hw := w.isLt
  have hb := b.isLt
  have hsum : (w + b.toWord).toNat = (w.toNat + b.toNat) % 65536 := by
    rw [BitVec.toNat_add, Byte.toWord, BitVec.toNat_setWidth]
    omega
  have hpage : w.samePage (w + b.toWord) = decide (w.toNat / 256 = (w + b.toWord).toNat / 256) := by
    rw [samePage, ← toNat_high, ← toNat_high, Bool.eq_iff_iff, beq_iff_eq, decide_eq_true_eq,
      BitVec.toNat_inj]
  rw [hpage, hsum, toNat_low, ← decide_not, decide_eq_decide]
  omega

structure Inputs.Clear (i : Inputs) : Prop where
  ready : i.ready = true
  busEnable : i.busEnable = true
  reset : i.reset = false

theorem Inputs.Clear.ready_withInputs {i : Inputs} (h : i.Clear) (bus : Bus) :
    (bus.withInputs i).ready.asserted = true :=
  (congrArg Inputs.ready (Bus.inputs_withInputs bus i)).trans h.ready

theorem Inputs.Clear.busEnable_withInputs {i : Inputs} (h : i.Clear) (bus : Bus) :
    (bus.withInputs i).busEnable.asserted = true :=
  (congrArg Inputs.busEnable (Bus.inputs_withInputs bus i)).trans h.busEnable

theorem Use.reads_of_touches (use : Use) {a : Word} {k : Nat} {x : Word × Bool}
    (hk : (use.touches a)[k]? = some x) (h : k + 1 < (use.touches a).length ∨ use = .read) :
    x.2 = false := by
  match use, k with
  | .read, 0 | .modify, 0 | .modify, 1 =>
    cases hk
    rfl
  | .write, 0 | .modify, 2 => simp [touches] at h
  | .read, k + 1 | .write, k + 1 | .modify, k + 3 => simp [touches] at hk

namespace Form

def carries (form : Form) (a : Word) (r : Registers) (ram : Memory) : Bool :=
  match form with
  | absoluteIndexed i => 256 ≤ (ram.word a).low.toNat + (i.value r).toNat
  | indirectIndexed => 256 ≤ (ram.pointer (ram.peek a)).low.toNat + r.y.toNat
  | _ => false

/-- The addresses of all accesses of an instruction with a memory operand, and which
of them write. -/
def path (form : Form) (use : Use) (always : Bool) (r : Registers) (ram : Memory) :
    List (Word × Bool) :=
  let a := r.pc + 1
  let fixed := form.carries a r ram || always
  (r.pc :: form.approach a r.x (ram.peek a) fixed).map (·, false) ++
    use.touches (form.effective a r ram)

theorem reads_of_path {form : Form} {use : Use} {always : Bool} {r : Registers} {ram : Memory}
    {k : Nat} {x : Word × Bool} (hk : (form.path use always r ram)[k]? = some x)
    (h : k + 1 < (form.path use always r ram).length ∨ use = .read) : x.2 = false := by
  let a := r.pc + 1
  let front := (r.pc :: form.approach a r.x (ram.peek a) (form.carries a r ram || always)).map
    (·, false)
  change (front ++ _)[k]? = some x at hk
  change k + 1 < (front ++ _).length ∨ _ at h
  by_cases hlt : k < front.length
  · rw [List.getElem?_append_left hlt] at hk
    obtain ⟨y, -, rfl⟩ := List.mem_map.1 (List.mem_of_getElem? hk)
    rfl
  · have hle : front.length ≤ k := Nat.le_of_not_lt hlt
    rw [List.getElem?_append_right hle] at hk
    apply use.reads_of_touches hk
    refine h.imp_left fun hlt' => ?_
    rw [List.length_append] at hlt'
    omega

end Form

namespace Memory

/-- Cycle after cycle the memory answers the transfers with what the cycles bring. -/
def Echoes : Memory → List Transfer → List Beat → Prop
  | ram, t :: ts, b :: l => b.data = (ram.exchange t).1 ∧ (ram.exchange t).2.Echoes ts l
  | _, [], [] => True
  | _, _, _ => False

variable {ram : Memory}

theorem Echoes.heard_of_reads {rs : List Word} {ts : List Transfer} {l : List Beat}
    (h : ram.Echoes (rs.map Transfer.read ++ ts) l) {k : Nat} {a : Word} (hk : rs[k]? = some a) :
    heard l k = ram.peek a := by
  -- reads leave the memory as it is, so it is the same one that answers all of them
  induction rs generalizing l k with
  | nil => cases hk
  | cons r rs ih =>
    cases l with
    | nil => exact h.elim
    | cons b l =>
      obtain ⟨hb, hrest⟩ := h
      cases k with
      | zero =>
        cases hk
        exact hb
      | succ k => exact ih hrest hk

theorem Full.answer_driveTransfer (hf : ram.Full) {bus : Bus}
    (hb : bus.busEnable.asserted = true) (t : Transfer) :
    let b := ram.answer (bus.driveTransfer t)
    b.data = (ram.exchange t).1 ∧ b.address = t.address ∧ b.isWrite = t.writes := by
  intro b
  obtain ⟨-, hreceived, hwrite⟩ := store_answer (t := t) hf.length hb (.inl hf.writable)
  have haddress (x : Bus) : (ram.answer x).address = x.address := by
    rw [answer]
    split <;> rfl
  cases t with
  | read a =>
    have hd : bus.driveTransfer (.read a) = bus.driveRead a := if_pos hb
    refine ⟨hreceived, ?_, hwrite⟩
    rw [haddress, hd]
    rfl
  | write a v =>
    have hd : bus.driveTransfer (.write a v) = bus.driveWrite a v := if_pos hb
    have hr : (bus.driveWrite a v).isWrite = true := Line.asserted_held
    have hb' : b = bus.driveWrite a v := by
      change ram.answer _ = _
      rw [hd, answer_of_write hr]
    exact ⟨congrArg Bus.data hb', congrArg Bus.address hb', hwrite⟩

end Memory

namespace Form

variable {form : Form} {r : Registers} {ram : Memory} {i : Instruction} {l : List Beat}
  {ts : List Transfer} {a : Word}

theorem of_echoes (h : ram.Echoes
      ((form.approach a r.x (heard l 0) (form.fixed i r (heard l))).map Transfer.read ++ ts) l) :
    form.target r (heard l) = form.effective a r ram ∧
      form.approach a r.x (heard l 0) (form.fixed i r (heard l)) =
        form.approach a r.x (ram.peek a) (form.carries a r ram || i.alwaysFixed) := by
  have hbyte {k : Nat} {x : Word}
      (hk : (form.approach a r.x (heard l 0) (form.fixed i r (heard l)))[k]? = some x) :
      heard l k = ram.peek x := h.heard_of_reads hk
  have hfixed {base : Word} {index : Byte}
      (hb : form.base? r (heard l) = some (base, index)) :
      form.fixed i r (heard l) = (decide (256 ≤ base.low.toNat + index.toNat) || i.alwaysFixed) := by
    rw [fixed, hb, Option.any_some, Word.leaves_page_iff]
  cases form with
  | zeroPage =>
    have h0 : heard l 0 = ram.peek a := hbyte rfl
    exact ⟨congrArg Byte.toWord h0, rfl⟩
  | zeroPageIndexed j =>
    have h0 : heard l 0 = ram.peek a := hbyte rfl
    refine ⟨congrArg (fun b => Byte.toWord (b + j.value r)) h0, ?_⟩
    rw [h0]
    rfl
  | absolute =>
    have h0 : heard l 0 = ram.peek a := hbyte rfl
    have h1 : heard l 1 = ram.peek (a + 1) := hbyte rfl
    exact ⟨congrArg₂ Word.ofBytes h0 h1, rfl⟩
  | absoluteIndexed j =>
    have h0 : heard l 0 = ram.peek a := hbyte rfl
    have h1 : heard l 1 = ram.peek (a + 1) := hbyte rfl
    have hbase : Word.ofBytes (heard l 0) (heard l 1) = ram.word a := congrArg₂ _ h0 h1
    refine ⟨congrArg (· + (j.value r).toWord) hbase, ?_⟩
    rw [hfixed rfl, hbase]
    rfl
  | zeroPageIndirect =>
    have h0 : heard l 0 = ram.peek a := hbyte rfl
    have h1 : heard l 1 = ram.peek (heard l 0).toWord := hbyte rfl
    have h2 : heard l 2 = ram.peek (Byte.toWord (heard l 0 + 1)) := hbyte rfl
    rw [h0] at h1 h2
    refine ⟨congrArg₂ Word.ofBytes h1 h2, ?_⟩
    rw [h0]
    rfl
  | indexedIndirect =>
    have h0 : heard l 0 = ram.peek a := hbyte rfl
    have h2 : heard l 2 = ram.peek (Byte.toWord (heard l 0 + r.x)) := hbyte rfl
    have h3 : heard l 3 = ram.peek (Byte.toWord (heard l 0 + r.x + 1)) := hbyte rfl
    rw [h0] at h2 h3
    refine ⟨congrArg₂ Word.ofBytes h2 h3, ?_⟩
    rw [h0]
    rfl
  | indirectIndexed =>
    have h0 : heard l 0 = ram.peek a := hbyte rfl
    have h1 : heard l 1 = ram.peek (heard l 0).toWord := hbyte rfl
    have h2 : heard l 2 = ram.peek (Byte.toWord (heard l 0 + 1)) := hbyte rfl
    rw [h0] at h1 h2
    have hbase : Word.ofBytes (heard l 1) (heard l 2) = ram.pointer (ram.peek a) :=
      congrArg₂ _ h1 h2
    refine ⟨congrArg (· + r.y.toWord) hbase, ?_⟩
    rw [hfixed rfl, hbase, h0]
    rfl

end Form

theorem Cpu.Spans.map_accesses {c : Cpu} {es : List (Bus × Bus)} {ram : Memory} (h : c.Spans es)
    (hc : c.Reachable) (hs : c.state.suspended = false) (h0 : c.state.step = 0)
    (hq : c.state.sequence = .instruction)
    (hmem : ram.Echoes ((c.accesses es).map Prod.snd) (beats false es)) {form : Form} {use : Use}
    (hmode : (Instruction.decode c.config.policy (ram.peek c.state.regs.pc)).mode =
      .memory form use) :
    let i := Instruction.decode c.config.policy (ram.peek c.state.regs.pc)
    (c.accesses es).map (fun a => (a.2.address, a.2.writes)) =
      form.path use i.alwaysFixed c.state.regs ram := by
  intro i
  obtain ⟨b, l, as, s, t, hb, ha, hi, hregs, -, hp⟩ := h.performs_instruction hc hs h0 hq
  rw [ha, hb] at hmem
  obtain ⟨hopcode, hrest⟩ := hmem
  have hopcode' : b.data = ram.peek c.state.regs.pc := hopcode
  have hi' : s.instruction = i := by rw [hi, hopcode']
  have hm : s.instruction.mode = .memory form use := by rw [hi', hmode]
  rw [hm] at hp
  obtain ⟨l₁, l₂, as₁, as₂, u, rfl, rfl, h₁, h₂⟩ := hp.of_append
  let r := c.state.regs
  let bytes := heard (l₁ ++ l₂)
  obtain ⟨hread, htarget⟩ := h₁.of_addressing l₂
  have hreads : as₁.map Prod.snd =
      (form.approach (r.pc + 1) r.x (bytes 0) (form.fixed i r bytes)).map Transfer.read := by
    rw [hread, hregs, hi']
    rfl
  have hechoes : ram.Echoes ((form.approach (r.pc + 1) r.x (bytes 0)
      (form.fixed i r bytes)).map Transfer.read ++ as₂.map Prod.snd) (l₁ ++ l₂) := by
    rw [← hreads, ← List.map_append]
    exact hrest
  obtain ⟨heff, happroach⟩ := Form.of_echoes hechoes
  have haddress : u.latches.address = form.effective (r.pc + 1) r ram := by
    rw [htarget, ← heff, hregs]
    rfl
  have htouch := h₂.of_use
  rw [haddress] at htouch
  rw [happroach] at hreads
  have hfirst : as₁.map (fun a => (a.2.address, a.2.writes)) =
      (form.approach (r.pc + 1) r.x (ram.peek (r.pc + 1))
        (form.carries (r.pc + 1) r ram || i.alwaysFixed)).map (·, false) := by
    have h := congrArg (List.map fun t : Transfer => (t.address, t.writes)) hreads
    rw [List.map_map, List.map_map] at h
    exact h
  rw [ha, List.map_cons, List.map_append, hfirst, htouch]
  rfl

namespace Computer

def wires (m : Computer) (w : Nat → Inputs) : Nat → List (Bus × Bus)
  | 0 => []
  | n + 1 =>
    (m.bus.withInputs (w 0), (m.under (w 0)).settled) ::
      wires (m.under (w 0)).edge.computer (fun k => w (k + 1)) n

theorem follow_tail (m : Computer) (w : Nat → Inputs) (n : Nat) :
    m.follow w (n + 1) = ((m.under (w 0)).edge.computer).follow (fun k => w (k + 1)) n := by
  rw [Nat.add_comm]
  exact (m.follow_add w 1 n).trans (congrArg (follow _ · n) (funext fun k => by rw [Nat.add_comm]))

@[simp] theorem length_wires (m : Computer) (w : Nat → Inputs) (n : Nat) :
    (m.wires w n).length = n := by
  induction n generalizing m w with
  | zero => rfl
  | succ n ih => exact congrArg (· + 1) (ih _ _)

theorem eq_wires_of_append {m : Computer} {w : Nat → Inputs} {n : Nat}
    {es₁ es₂ : List (Bus × Bus)} (h : m.wires w n = es₁ ++ es₂) :
    es₁ = m.wires w es₁.length := by
  induction es₁ generalizing m w n with
  | nil => rfl
  | cons e es₁ ih =>
    cases n with
    | zero => cases h
    | succ n =>
      obtain ⟨he, hrest⟩ := List.cons.inj h
      rw [List.length_cons, wires, ← ih hrest, he]

section Clear

variable {m : Computer} {w : Nat → Inputs} (hw : ∀ k, (w k).Clear)
include hw

theorem length_beats_wires (asked : Bool) (n : Nat) : (beats asked (m.wires w n)).length = n := by
  induction n generalizing m w asked with
  | zero => rfl
  | succ n ih =>
    rw [wires, beats, (hw 0).ready_withInputs]
    exact congrArg (· + 1) (ih (fun k => hw (k + 1)) false)

theorem tally_resets_wires (c : Cpu) (n : Nat) :
    c.tally (fun c e => c.recognisesReset e.2) (m.wires w n) = 0 := by
  induction n generalizing m w c with
  | zero => rfl
  | succ n ih =>
    have hreset : (m.under (w 0)).settled.reset.asserted = false :=
      (m.reset_settled (w 0)).trans (hw 0).reset
    rw [wires, Cpu.tally, Cpu.not_recognised_of_released hreset]
    exact (Nat.zero_add _).trans (ih (fun k => hw (k + 1)) _)

end Clear

theorem edge_of_clear {m : Computer} {ram : Memory} {i : Inputs}
    (hm : m.cpu.state.WellFormed) (hs : m.cpu.state.suspended = false)
    (hmem : m.memories = [ram]) (hf : ram.Full) (hi : i.Clear) :
    ∃ op t, m.cpu.access (m.bus.withInputs i) = some (op, t) ∧
      (m.under i).edge.computer.memories = [(ram.exchange t).2] ∧
      (m.under i).settled.data = (ram.exchange t).1 ∧
      (m.under i).settled.address = t.address ∧ (m.under i).settled.isWrite = t.writes := by
  let bus := m.bus.withInputs i
  let s := m.cpu.state.sample bus
  let t := m.cpu.state.currentOp.transfer s
  have hready : bus.ready.asserted = true := hi.ready_withInputs m.bus
  have hrun : m.cpu.runs bus = true := (Cpu.runs_eq_ready hs bus).trans hready
  have hwatch : m.cpu.state.watch bus = s := State.watch_of_running hs bus
  have hdrive : (m.cpu.drive bus).2 = s.drives bus := by
    rw [Cpu.drive_of_runs hm hrun, hwatch]
  have haccess : m.cpu.access bus = some (m.cpu.state.currentOp, t) := by
    rw [Cpu.access_of_running hm hs, hready, if_pos rfl]
  have hsettled : (m.under i).settled = ram.answer (s.drives bus) := by
    have h : (m.under i).settled = (respond m.memories (m.cpu.drive bus).2).bus := rfl
    rw [h, hmem, hdrive]
    rfl
  have hmemories : (m.under i).edge.computer.memories = [ram.store (s.drives bus)] := by
    rw [memories_edge, memories_under, hmem, cpu_under, bus_under]
    change [ram.store (m.cpu.drive bus).2] = _
    rw [hdrive]
  let b := bus.signal (m.cpu.state.currentOp = .fetchOpcode) m.cpu.state.currentOp.pullsVector
    s.locksMemory
  have hb : b.busEnable.asserted = true := hi.busEnable_withInputs m.bus
  have hdrives : s.drives bus = b.driveTransfer t := rfl
  obtain ⟨hstore, -⟩ := Memory.store_answer (t := t) hf.length hb (.inl hf.writable)
  rw [← hdrives] at hstore
  rw [hstore] at hmemories
  refine ⟨_, t, haccess, hmemories, ?_⟩
  rw [hsettled, hdrives]
  exact hf.answer_driveTransfer hb t

theorem echoes_wires {m : Computer} {ram : Memory} {w : Nat → Inputs} {n : Nat}
    (h : m.cpu.Spans (m.wires w n)) (hm : m.cpu.Reachable) (hs : m.cpu.state.suspended = false)
    (hmem : m.memories = [ram]) (hf : ram.Full) (hw : ∀ k, (w k).Clear) (asked : Bool) :
    ram.Echoes ((m.cpu.accesses (m.wires w n)).map Prod.snd) (beats asked (m.wires w n)) ∧
      (List.range n).map (fun k =>
          ((m.follow w (k + 1)).bus.address, (m.follow w (k + 1)).bus.isWrite)) =
        (m.cpu.accesses (m.wires w n)).map fun a => (a.2.address, a.2.writes) := by
  induction n generalizing m w ram asked with
  | zero => exact h.elim
  | succ n ih =>
    let bus := m.bus.withInputs (w 0)
    let d := (m.under (w 0)).edge.computer
    let w' (k : Nat) : Inputs := w (k + 1)
    have hready : bus.ready.asserted = true := (hw 0).ready_withInputs m.bus
    have hcpu : m.cpu.edge bus (m.under (w 0)).settled = d.cpu := (cpu_edge _).symm
    obtain ⟨op, t, haccess, hmem', hdata, haddress, hwrite⟩ :=
      edge_of_clear hm.wellFormed.state hs hmem hf (hw 0)
    -- the edges after this one find the memory that the exchange has left
    have hrest : (ram.exchange t).2.Echoes ((d.cpu.accesses (d.wires w' n)).map Prod.snd)
          (beats false (d.wires w' n)) ∧
        (List.range n).map (fun k =>
            ((d.follow w' (k + 1)).bus.address, (d.follow w' (k + 1)).bus.isWrite)) =
          (d.cpu.accesses (d.wires w' n)).map fun a => (a.2.address, a.2.writes) := by
      cases hret : m.cpu.returns (bus, (m.under (w 0)).settled) with
      | true =>
        obtain ⟨-, hnil⟩ := (Cpu.spans_cons_of_returns hret).1 h
        have hn : n = 0 := (length_wires d w' n).symm.trans (congrArg List.length hnil)
        subst hn
        exact ⟨trivial, rfl⟩
      | false =>
        obtain ⟨hr, hspans⟩ := (Cpu.spans_cons hret).1 h
        have hstep := Cpu.step_edge_of_not_returns hm.wellFormed.state hs hr hready hret
        have hd := hm.edge bus (m.under (w 0)).settled
        rw [hcpu] at hspans hstep hd
        exact ih hspans hd (hd.wellFormed.state.running hstep) hmem' (hf.exchange t)
          (fun k => hw (k + 1)) false
    have hbus : (m.follow w 1).bus = (m.under (w 0)).settled := bus_edge _
    rw [wires, beats, hready, Cpu.accesses_cons, haccess, hcpu]
    refine ⟨⟨hdata, hrest.1⟩, ?_⟩
    rw [List.range_succ_eq_map, List.map_cons, List.map_map, hbus, haddress, hwrite]
    refine congrArg (_ :: ·) (Eq.trans ?_ hrest.2)
    apply List.map_congr_left
    intro k _
    rw [Function.comp_apply, follow_tail]

/-- An instruction with a memory operand makes the accesses of its path, in order and
one on each edge, and is over then. It never writes before its last cycle, and one
that reads its operand never does. -/
theorem operand_accesses {m : Computer} {ram : Memory} {w : Nat → Inputs} {form : Form} {use : Use}
    (hm : m.cpu.Reachable) (hs : m.cpu.state.suspended = false) (h0 : m.cpu.state.step = 0)
    (hq : m.cpu.state.sequence = .instruction) (hmem : m.memories = [ram]) (hf : ram.Full)
    (hmode : (Instruction.decode m.cpu.config.policy (ram.peek m.cpu.state.regs.pc)).mode =
      .memory form use)
    (hw : ∀ k, (w k).Clear) :
    let i := Instruction.decode m.cpu.config.policy (ram.peek m.cpu.state.regs.pc)
    let path := form.path use i.alwaysFixed m.cpu.state.regs ram
    let n := path.length
    m.cpu.Spans (m.wires w n) ∧
    (List.range n).map (fun k =>
      ((m.follow w (k + 1)).bus.address, (m.follow w (k + 1)).bus.isWrite)) = path ∧
    (∀ k, k + 1 < n → (m.follow w (k + 1)).bus.isWrite = false) ∧
    (use = .read → ∀ k < n, (m.follow w (k + 1)).bus.isWrite = false) := by
  intro i path n
  have hseven : 7 ≤ (beats false (m.wires w 7)).length := (length_beats_wires hw false 7).ge
  obtain ⟨es₁, es₂, hes, hspans⟩ :=
    Cpu.exists_spans hm hs h0 (tally_resets_wires hw m.cpu 7) hseven
  rw [eq_wires_of_append hes] at hspans
  obtain ⟨hechoes, hwires⟩ := echoes_wires hspans hm hs hmem hf hw false
  have haccesses := hspans.map_accesses hm hs h0 hq hechoes hmode
  rw [haccesses] at hwires
  have hn : es₁.length = n := by
    have h := congrArg List.length hwires
    rw [List.length_map, List.length_range] at h
    exact h
  rw [hn] at hspans hwires
  change _ = path at hwires
  have hpath (k : Nat) (hk : k < n) :
      path[k]? = some ((m.follow w (k + 1)).bus.address, (m.follow w (k + 1)).bus.isWrite) := by
    rw [← hwires]
    simp [hk]
  refine ⟨hspans, hwires, ?_, ?_⟩
  · intro k hk
    exact Form.reads_of_path (hpath k (Nat.lt_of_succ_lt hk)) (.inl hk)
  · intro hread k hk
    exact Form.reads_of_path (hpath k hk) (.inr hread)

/-- `INC $02FF,X` from the last address on, with a carry into the high byte. -/
theorem operand_accesses_wrapped :
    let code := ((Memory.blank.poke 0xFFFF 0xFE).poke 0x0000 0xFF).poke 0x0001 0x02
    let r : Registers := { Registers.powerOn with x := 1, pc := 0xFFFF }
    let m : Computer := ⟨((Cpu.powerOn .standard).startAt r, [code]), .quiet, ⟨0⟩⟩
    (List.range 7).map (fun k =>
      let bus := (m.follow (fun _ => .quiet) (k + 1)).bus
      (bus.address, bus.isWrite)) =
      [(0xFFFF, false), (0x0000, false), (0x0001, false), (0x0001, false), (0x0300, false),
        (0x0300, false), (0x0300, true)] := by
  intro code r m
  have h0 := Memory.full_blank
  have h1 := h0.poke 0xFFFF 0xFE
  have h2 := h1.poke 0x0000 0xFF
  have hf : code.Full := h2.poke 0x0001 0x02
  have hpeek (a : Word) : code.peek a =
      if a = 0x0001 then 0x02 else if a = 0x0000 then 0xFF else if a = 0xFFFF then 0xFE else 0 := by
    rw [h2.peek_poke, h1.peek_poke, h0.peek_poke, Memory.peek_blank]
  clear_value code
  have hop : code.peek r.pc = 0xFE := hpeek _
  have hd : Instruction.decode .sized (code.peek r.pc) =
      ⟨0xFE, .modify .inc, .memory (.absoluteIndexed .x) .modify⟩ := by
    rw [hop]
    decide
  have hpath : (Form.absoluteIndexed .x).path .modify (Instruction.alwaysFixed
      ⟨0xFE, .modify .inc, .memory (.absoluteIndexed .x) .modify⟩) r code =
      [(0xFFFF, false), (0x0000, false), (0x0001, false), (0x0001, false), (0x0300, false),
        (0x0300, false), (0x0300, true)] := by
    simp only [Form.path, Form.carries, Form.effective, Memory.word, hpeek]
    decide
  have hm : m.cpu.Reachable := .startAt r (.powerOn .standard)
  have hmode : (Instruction.decode m.cpu.config.policy (code.peek m.cpu.state.regs.pc)).mode =
      .memory (.absoluteIndexed .x) .modify := congrArg Instruction.mode hd
  have hwires := (operand_accesses (w := fun _ => .quiet) hm rfl rfl rfl rfl hf hmode
    fun _ => ⟨rfl, rfl, rfl⟩).2.1
  have hi : Instruction.decode m.cpu.config.policy (code.peek m.cpu.state.regs.pc) =
      ⟨0xFE, .modify .inc, .memory (.absoluteIndexed .x) .modify⟩ := hd
  have hr : m.cpu.state.regs = r := rfl
  rw [hi, hr, hpath] at hwires
  exact hwires

end Computer

end Cmos6502
