import Chip8.Instruction.Encoding

/-!
# Assembly lines

An instruction is written as a mnemonic and a list of operands. Several instructions share a
mnemonic and differ in the kind of their operands, so each kind has a spelling of its own: registers
are `V` and a digit, bytes have two hexadecimal digits, addresses at least three, row counts are
decimal, and the devices have names.
-/

set_option autoImplicit false

namespace Chip8

inductive Mnemonic where
  | cls | ret | jp | call | se | sne | ld | add | or | and | xor | sub | subn | shr | shl
  | rnd | drw | skp | sknp
  deriving DecidableEq

inductive Operand where
  | register (x : Nat)
  | byte (nn : UInt8)
  | address (nnn : UInt16)
  | rows (n : UInt8)
  | index
  | atIndex
  | delay
  | sound
  | key
  | glyph
  | decimal
  deriving DecidableEq

structure Assembly where
  mnemonic : Mnemonic
  operands : List Operand
  deriving DecidableEq

def Mnemonic.text : Mnemonic → String
  | cls => "CLS"
  | ret => "RET"
  | jp => "JP"
  | call => "CALL"
  | se => "SE"
  | sne => "SNE"
  | ld => "LD"
  | add => "ADD"
  | or => "OR"
  | and => "AND"
  | xor => "XOR"
  | sub => "SUB"
  | subn => "SUBN"
  | shr => "SHR"
  | shl => "SHL"
  | rnd => "RND"
  | drw => "DRW"
  | skp => "SKP"
  | sknp => "SKNP"

def registerName (x : Nat) : String := "V" ++ Hexadecimal.upper 1 x

def Operand.text : Operand → String
  | register x => registerName x
  | byte nn => Hexadecimal.marked 2 nn.toNat
  | address nnn => Hexadecimal.marked 3 nnn.toNat
  | rows n => toString n.toNat
  | index => "I"
  | atIndex => "[I]"
  | delay => "DT"
  | sound => "ST"
  | key => "K"
  | glyph => "F"
  | decimal => "B"

def Assembly.text : Assembly → String
  | ⟨m, []⟩ => m.text
  | ⟨m, operands⟩ => m.text ++ " " ++ ", ".intercalate (operands.map Operand.text)

namespace Instruction

def assembly : Instruction → Assembly
  | clearScreen => ⟨.cls, []⟩
  | ret => ⟨.ret, []⟩
  | jump nnn => ⟨.jp, [.address nnn]⟩
  | call nnn => ⟨.call, [.address nnn]⟩
  | skipEqByte x nn => ⟨.se, [.register x, .byte nn]⟩
  | skipNeByte x nn => ⟨.sne, [.register x, .byte nn]⟩
  | skipEq x y => ⟨.se, [.register x, .register y]⟩
  | skipNe x y => ⟨.sne, [.register x, .register y]⟩
  | loadByte x nn => ⟨.ld, [.register x, .byte nn]⟩
  | addByte x nn => ⟨.add, [.register x, .byte nn]⟩
  | copy x y => ⟨.ld, [.register x, .register y]⟩
  | or x y => ⟨.or, [.register x, .register y]⟩
  | and x y => ⟨.and, [.register x, .register y]⟩
  | xor x y => ⟨.xor, [.register x, .register y]⟩
  | add x y => ⟨.add, [.register x, .register y]⟩
  | sub x y => ⟨.sub, [.register x, .register y]⟩
  | subFrom x y => ⟨.subn, [.register x, .register y]⟩
  | shiftRight x => ⟨.shr, [.register x]⟩
  | shiftLeft x => ⟨.shl, [.register x]⟩
  | setIndex nnn => ⟨.ld, [.index, .address nnn]⟩
  | jumpOffset nnn => ⟨.jp, [.register 0, .address nnn]⟩
  | random x nn => ⟨.rnd, [.register x, .byte nn]⟩
  | draw x y n => ⟨.drw, [.register x, .register y, .rows n]⟩
  | skipKey x => ⟨.skp, [.register x]⟩
  | skipNoKey x => ⟨.sknp, [.register x]⟩
  | readDelay x => ⟨.ld, [.register x, .delay]⟩
  | awaitKey x => ⟨.ld, [.register x, .key]⟩
  | setDelay x => ⟨.ld, [.delay, .register x]⟩
  | setSound x => ⟨.ld, [.sound, .register x]⟩
  | addIndex x => ⟨.add, [.index, .register x]⟩
  | glyph x => ⟨.ld, [.glyph, .register x]⟩
  | storeDecimal x => ⟨.ld, [.decimal, .register x]⟩
  | saveRegisters x => ⟨.ld, [.atIndex, .register x]⟩
  | loadRegisters x => ⟨.ld, [.register x, .atIndex]⟩

def text (i : Instruction) : String := i.assembly.text

end Instruction

def disassemble (w : UInt16) : String :=
  match Instruction.decode? w with
  | some i => i.text
  | none => (UnknownOpcode.mk w).message

end Chip8
