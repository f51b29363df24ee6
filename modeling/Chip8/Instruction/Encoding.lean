import Chip8.Instruction.Basic
import Chip8.Text.Hexadecimal
import Chip8.Word

/-!
# Instruction words

Which word stands for which instruction. The first digit selects a group; groups 0, 8, E and F look
at further digits and refuse words they do not know. A digit that a group does not look at is free:
`0AE0` clears the screen, `5123` skips like `5120`, and `E12E` is a key skip.
-/

set_option autoImplicit false

namespace Chip8

structure UnknownOpcode where
  opcode : UInt16
  deriving DecidableEq

def UnknownOpcode.message (u : UnknownOpcode) : String :=
  "invalid opcode " ++ Hexadecimal.marked 4 u.opcode.toNat

namespace Instruction

def decodeScreen? (nn : UInt8) : Option Instruction :=
  match nn.toNat with
  | 0xE0 => some clearScreen
  | 0xEE => some ret
  | _ => none

def decodeArithmetic? (x y n : Nat) : Option Instruction :=
  match n with
  | 0x0 => some (copy x y)
  | 0x1 => some (or x y)
  | 0x2 => some (and x y)
  | 0x3 => some (xor x y)
  | 0x4 => some (add x y)
  | 0x5 => some (sub x y)
  | 0x6 => some (shiftRight x)
  | 0x7 => some (subFrom x y)
  | 0xE => some (shiftLeft x)
  | _ => none

def decodeKeys? (x n : Nat) : Option Instruction :=
  match n with
  | 0xE => some (skipKey x)
  | 0x1 => some (skipNoKey x)
  | _ => none

def decodeDevices? (x : Nat) (nn : UInt8) : Option Instruction :=
  match nn.toNat with
  | 0x07 => some (readDelay x)
  | 0x0A => some (awaitKey x)
  | 0x15 => some (setDelay x)
  | 0x18 => some (setSound x)
  | 0x1E => some (addIndex x)
  | 0x29 => some (glyph x)
  | 0x33 => some (storeDecimal x)
  | 0x55 => some (saveRegisters x)
  | 0x65 => some (loadRegisters x)
  | _ => none

def decode? (w : UInt16) : Option Instruction :=
  let f := Nibbles.ofWord w
  let nn := w.toUInt8
  let nnn := Word.address w
  match f.group with
  | 0x0 => decodeScreen? nn
  | 0x1 => some (jump nnn)
  | 0x2 => some (call nnn)
  | 0x3 => some (skipEqByte f.x nn)
  | 0x4 => some (skipNeByte f.x nn)
  | 0x5 => some (skipEq f.x f.y)
  | 0x6 => some (loadByte f.x nn)
  | 0x7 => some (addByte f.x nn)
  | 0x8 => decodeArithmetic? f.x f.y f.n
  | 0x9 => some (skipNe f.x f.y)
  | 0xA => some (setIndex nnn)
  | 0xB => some (jumpOffset nnn)
  | 0xC => some (random f.x nn)
  | 0xD => some (draw f.x f.y (UInt8.ofNat f.n))
  | 0xE => decodeKeys? f.x f.n
  | 0xF => decodeDevices? f.x nn
  | _ => none

end Instruction

end Chip8
