/-!
# Hexadecimal text

Numbers are written without leading zeros, or filled with zeros to a least width; a number that
needs more digits keeps them all. Bytes in a row take two digits each.
-/

set_option autoImplicit false

namespace Chip8.Hexadecimal

def digits (width n : Nat) : List Char := (Nat.toDigits 16 n).leftpad width '0'

def lower (width n : Nat) : String := String.ofList (digits width n)

def upper (width n : Nat) : String := String.ofList ((digits width n).map Char.toUpper)

def marked (width n : Nat) : String := "0x" ++ lower width n

def ofBytes (bytes : List UInt8) : String :=
  String.ofList (bytes.flatMap fun b => digits 2 b.toNat)

def value? (code : UInt8) : Option Nat :=
  let c := code.toNat
  if 48 ≤ c ∧ c ≤ 57 then some (c - 48)
  else if 65 ≤ c ∧ c ≤ 70 then some (c - 55)
  else if 97 ≤ c ∧ c ≤ 102 then some (c - 87)
  else none

theorem value?_lt {code : UInt8} {v : Nat} (h : value? code = some v) : v < 16 := by
  simp only [value?] at h
  split at h
  · cases h; omega
  · split at h
    · cases h; omega
    · split at h
      · cases h; omega
      · cases h

end Chip8.Hexadecimal
