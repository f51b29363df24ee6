/-!
# Instructions

The thirty-four instructions with their operands: register numbers `x` and `y`, a byte `nn`, a
twelve-bit address `nnn`, a row count `n`. Register numbers are plain naturals; what a machine makes
of a number past its last register is the machine's affair, and decoding never produces one.
-/

set_option autoImplicit false

namespace Chip8

inductive Instruction where
  | clearScreen
  | ret
  | jump (nnn : UInt16)
  | call (nnn : UInt16)
  | skipEqByte (x : Nat) (nn : UInt8)
  | skipNeByte (x : Nat) (nn : UInt8)
  | skipEq (x y : Nat)
  | skipNe (x y : Nat)
  | loadByte (x : Nat) (nn : UInt8)
  | addByte (x : Nat) (nn : UInt8)
  | copy (x y : Nat)
  | or (x y : Nat)
  | and (x y : Nat)
  | xor (x y : Nat)
  | add (x y : Nat)
  | sub (x y : Nat)
  | subFrom (x y : Nat)
  | shiftRight (x : Nat)
  | shiftLeft (x : Nat)
  | setIndex (nnn : UInt16)
  | jumpOffset (nnn : UInt16)
  | random (x : Nat) (nn : UInt8)
  | draw (x y : Nat) (n : UInt8)
  | skipKey (x : Nat)
  | skipNoKey (x : Nat)
  | readDelay (x : Nat)
  | awaitKey (x : Nat)
  | setDelay (x : Nat)
  | setSound (x : Nat)
  | addIndex (x : Nat)
  | glyph (x : Nat)
  | storeDecimal (x : Nat)
  | saveRegisters (x : Nat)
  | loadRegisters (x : Nat)
  deriving DecidableEq

namespace Instruction

def usesTape : Instruction → Bool
  | random _ _ => true
  | _ => false

end Instruction

end Chip8
