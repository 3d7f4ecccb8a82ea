import Cmos6502.Mode.Basic

namespace Cmos6502

/-- What becomes of an opcode that the map leaves open: a `NOP` that takes the
operand bytes of its column, or one that takes none. -/
inductive Policy where
  | sized
  | implied
deriving DecidableEq

namespace Opcode

abbrev Binding := Operation × Mode

def loads (op : ReadOp) (form : Form) : Option Binding := some (.read op, .memory form .read)

def stores (op : WriteOp) (form : Form) : Option Binding := some (.write op, .memory form .write)

def changes (op : ModifyOp) (form : Form) : Option Binding :=
  some (.modify op, .memory form .modify)

def immediate (op : ReadOp) : Option Binding := some (.read op, .immediate)

def changesA (op : ModifyOp) : Option Binding := some (.modify op, .accumulator)

def implies (op : ImpliedOp) : Option Binding := some (.implied op, .implied)

def halts (op : ImpliedOp) : Option Binding := some (.implied op, .halt)

def pushes (op : WriteOp) : Option Binding := some (.write op, .push)

def pulls (op : ReadOp) : Option Binding := some (.read op, .pull)

def branches (op : BranchOp) : Option Binding := some (.branch op, .relative)

def testsBit (op : BranchOp) : Option Binding := some (.branch op, .zeroPageRelative)

def controls (op : ControlOp) (mode : Mode) : Option Binding := some (.control op, mode)

abbrev zp : Form := .zeroPage
abbrev zpX : Form := .zeroPageIndexed .x
abbrev zpY : Form := .zeroPageIndexed .y
abbrev abs : Form := .absolute
abbrev absX : Form := .absoluteIndexed .x
abbrev absY : Form := .absoluteIndexed .y
abbrev ind : Form := .zeroPageIndirect
abbrev indX : Form := .indexedIndirect
abbrev indY : Form := .indirectIndexed

def gap : Option Binding := none

def rows : List (List (Option Binding)) :=
  [[controls .brk .brk, loads .ora indX, gap, gap, changes .tsb zp, loads .ora zp,
      changes .asl zp, changes (.rmb 0) zp, pushes .php, immediate .ora, changesA .asl, gap,
      changes .tsb abs, loads .ora abs, changes .asl abs, testsBit (.bbr 0)],
    [branches .bpl, loads .ora indY, loads .ora ind, gap, changes .trb zp, loads .ora zpX,
      changes .asl zpX, changes (.rmb 1) zp, implies .clc, loads .ora absY, changesA .inc, gap,
      changes .trb abs, loads .ora absX, changes .asl absX, testsBit (.bbr 1)],
    [controls .jsr .jsr, loads .and indX, gap, gap, loads .bit zp, loads .and zp,
      changes .rol zp, changes (.rmb 2) zp, pulls .plp, immediate .and, changesA .rol, gap,
      loads .bit abs, loads .and abs, changes .rol abs, testsBit (.bbr 2)],
    [branches .bmi, loads .and indY, loads .and ind, gap, loads .bit zpX, loads .and zpX,
      changes .rol zpX, changes (.rmb 3) zp, implies .sec, loads .and absY, changesA .dec, gap,
      loads .bit absX, loads .and absX, changes .rol absX, testsBit (.bbr 3)],
    [controls .rti .rti, loads .eor indX, gap, gap, gap, loads .eor zp, changes .lsr zp,
      changes (.rmb 4) zp, pushes .pha, immediate .eor, changesA .lsr, gap,
      controls .jmp .jumpAbsolute, loads .eor abs, changes .lsr abs, testsBit (.bbr 4)],
    [branches .bvc, loads .eor indY, loads .eor ind, gap, gap, loads .eor zpX, changes .lsr zpX,
      changes (.rmb 5) zp, implies .cli, loads .eor absY, pushes .phy, gap, gap, loads .eor absX,
      changes .lsr absX, testsBit (.bbr 5)],
    [controls .rts .rts, loads .adc indX, gap, gap, stores .stz zp, loads .adc zp,
      changes .ror zp, changes (.rmb 6) zp, pulls .pla, immediate .adc, changesA .ror, gap,
      controls .jmp .jumpIndirect, loads .adc abs, changes .ror abs, testsBit (.bbr 6)],
    [branches .bvs, loads .adc indY, loads .adc ind, gap, stores .stz zpX, loads .adc zpX,
      changes .ror zpX, changes (.rmb 7) zp, implies .sei, loads .adc absY, pulls .ply, gap,
      controls .jmp .jumpIndexedIndirect, loads .adc absX, changes .ror absX, testsBit (.bbr 7)],
    [branches .bra, stores .sta indX, gap, gap, stores .sty zp, stores .sta zp, stores .stx zp,
      changes (.smb 0) zp, implies .dey, immediate .bitImmediate, implies .txa, gap,
      stores .sty abs, stores .sta abs, stores .stx abs, testsBit (.bbs 0)],
    [branches .bcc, stores .sta indY, stores .sta ind, gap, stores .sty zpX, stores .sta zpX,
      stores .stx zpY, changes (.smb 1) zp, implies .tya, stores .sta absY, implies .txs, gap,
      stores .stz abs, stores .sta absX, stores .stz absX, testsBit (.bbs 1)],
    [immediate .ldy, loads .lda indX, immediate .ldx, gap, loads .ldy zp, loads .lda zp,
      loads .ldx zp, changes (.smb 2) zp, implies .tay, immediate .lda, implies .tax, gap,
      loads .ldy abs, loads .lda abs, loads .ldx abs, testsBit (.bbs 2)],
    [branches .bcs, loads .lda indY, loads .lda ind, gap, loads .ldy zpX, loads .lda zpX,
      loads .ldx zpY, changes (.smb 3) zp, implies .clv, loads .lda absY, implies .tsx, gap,
      loads .ldy absX, loads .lda absX, loads .ldx absY, testsBit (.bbs 3)],
    [immediate .cpy, loads .cmp indX, gap, gap, loads .cpy zp, loads .cmp zp, changes .dec zp,
      changes (.smb 4) zp, implies .iny, immediate .cmp, implies .dex, halts .wai,
      loads .cpy abs, loads .cmp abs, changes .dec abs, testsBit (.bbs 4)],
    [branches .bne, loads .cmp indY, loads .cmp ind, gap, gap, loads .cmp zpX, changes .dec zpX,
      changes (.smb 5) zp, implies .cld, loads .cmp absY, pushes .phx, halts .stp, gap,
      loads .cmp absX, changes .dec absX, testsBit (.bbs 5)],
    [immediate .cpx, loads .sbc indX, gap, gap, loads .cpx zp, loads .sbc zp, changes .inc zp,
      changes (.smb 6) zp, implies .inx, immediate .sbc, implies .nop, gap, loads .cpx abs,
      loads .sbc abs, changes .inc abs, testsBit (.bbs 6)],
    [branches .beq, loads .sbc indY, loads .sbc ind, gap, gap, loads .sbc zpX, changes .inc zpX,
      changes (.smb 7) zp, implies .sed, loads .sbc absY, pulls .plx, gap, gap, loads .sbc absX,
      changes .inc absX, testsBit (.bbs 7)]]

def bound (opcode : Byte) : Option Binding :=
  (rows.getD (opcode.toNat / 16) []).getD (opcode.toNat % 16) gap

def gapMode (policy : Policy) (opcode : Byte) : Mode :=
  match policy with
  | .implied => .implied
  | .sized =>
    if opcode = 0x44 then .memory .zeroPage .read
    else if opcode ∈ [0x54, 0xD4, 0xF4] then .memory (.zeroPageIndexed .x) .read
    else if opcode ∈ [0x5C, 0xDC, 0xFC] then .memory .absolute .read
    else if opcode &&& 0x0F = 0x02 then .immediate
    else .implied

/-- Indexed stores, `INC` and `DEC` pay for the page fixup even when the index
stays in the page. -/
def alwaysFixed : List Byte := [0x91, 0x99, 0x9D, 0x9E, 0xDE, 0xFE]

end Opcode

end Cmos6502
