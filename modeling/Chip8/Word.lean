/-!
# Words and bytes

A word is sixteen bits and a byte eight. This file takes a word apart into its four hexadecimal
digits, puts it together from two bytes, and reads single bits. Everything is stated in natural
numbers, where the wrap-around of the fixed widths is a remainder.
-/

set_option autoImplicit false

namespace Chip8

structure Nibbles where
  group : Nat
  x : Nat
  y : Nat
  n : Nat
  deriving DecidableEq

namespace Nibbles

def ofWord (w : UInt16) : Nibbles :=
  ⟨w.toNat / 4096, w.toNat / 256 % 16, w.toNat / 16 % 16, w.toNat % 16⟩

theorem x_lt (w : UInt16) : (ofWord w).x < 16 := Nat.mod_lt _ (by decide)

theorem y_lt (w : UInt16) : (ofWord w).y < 16 := Nat.mod_lt _ (by decide)

theorem toNat_eq (w : UInt16) :
    w.toNat = (ofWord w).group * 4096 + (ofWord w).x * 256 + (ofWord w).y * 16 + (ofWord w).n := by
  simp only [ofWord]
  omega

end Nibbles

namespace Word

def address (w : UInt16) : UInt16 := w % 4096

def ofBytes (high low : UInt8) : UInt16 := high.toUInt16 * 256 + low.toUInt16

theorem toNat_ofBytes (high low : UInt8) :
    (ofBytes high low).toNat = high.toNat * 256 + low.toNat := by
  have hh := high.toNat_lt
  have hl := low.toNat_lt
  simp only [ofBytes, UInt16.toNat_add, UInt16.toNat_mul, UInt8.toNat_toUInt16,
    UInt16.reduceToNat]
  omega

end Word

/-- Bit `i` of a byte, the least significant one being bit 0. -/
def bit (b : UInt8) (i : Nat) : Bool := b.toNat.testBit i

end Chip8
