import Cmos6502.Operation.Basic

namespace Cmos6502

def ReadOp.mnemonic : ReadOp → String
  | lda => "LDA"
  | ldx => "LDX"
  | ldy => "LDY"
  | adc => "ADC"
  | sbc => "SBC"
  | and => "AND"
  | ora => "ORA"
  | eor => "EOR"
  | cmp => "CMP"
  | cpx => "CPX"
  | cpy => "CPY"
  | bit => "BIT"
  | bitImmediate => "BIT"
  | pla => "PLA"
  | plp => "PLP"
  | plx => "PLX"
  | ply => "PLY"

def WriteOp.mnemonic : WriteOp → String
  | sta => "STA"
  | stx => "STX"
  | sty => "STY"
  | stz => "STZ"
  | pha => "PHA"
  | php => "PHP"
  | phx => "PHX"
  | phy => "PHY"

def ModifyOp.mnemonic : ModifyOp → String
  | asl => "ASL"
  | lsr => "LSR"
  | rol => "ROL"
  | ror => "ROR"
  | inc => "INC"
  | dec => "DEC"
  | tsb => "TSB"
  | trb => "TRB"
  | rmb bit => s!"RMB{bit.toNat}"
  | smb bit => s!"SMB{bit.toNat}"

def ImpliedOp.mnemonic : ImpliedOp → String
  | tax => "TAX"
  | tay => "TAY"
  | txa => "TXA"
  | tya => "TYA"
  | tsx => "TSX"
  | txs => "TXS"
  | inx => "INX"
  | iny => "INY"
  | dex => "DEX"
  | dey => "DEY"
  | clc => "CLC"
  | sec => "SEC"
  | cli => "CLI"
  | sei => "SEI"
  | cld => "CLD"
  | sed => "SED"
  | clv => "CLV"
  | nop => "NOP"
  | wai => "WAI"
  | stp => "STP"

def BranchOp.mnemonic : BranchOp → String
  | bpl => "BPL"
  | bmi => "BMI"
  | bvc => "BVC"
  | bvs => "BVS"
  | bcc => "BCC"
  | bcs => "BCS"
  | bne => "BNE"
  | beq => "BEQ"
  | bra => "BRA"
  | bbr bit => s!"BBR{bit.toNat}"
  | bbs bit => s!"BBS{bit.toNat}"

def ControlOp.mnemonic : ControlOp → String
  | jmp => "JMP"
  | jsr => "JSR"
  | rts => "RTS"
  | rti => "RTI"
  | brk => "BRK"

def Operation.mnemonic : Operation → String
  | read op => op.mnemonic
  | write op => op.mnemonic
  | modify op => op.mnemonic
  | implied op => op.mnemonic
  | branch op => op.mnemonic
  | control op => op.mnemonic

end Cmos6502
