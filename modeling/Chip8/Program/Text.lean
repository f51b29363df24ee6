import Chip8.Text.Blank
import Chip8.Text.CharLiteral

/-!
# Program text

A program written as hexadecimal digits, two for each byte, with white space anywhere between them.
White space is removed by characters; lengths and positions count the bytes of what is left, in
UTF-8. A text with an odd number of bytes is refused as such, whatever else is wrong with it;
otherwise the first byte that is no digit is named.
-/

set_option autoImplicit false

namespace Chip8.ProgramText

inductive Error where
  | oddLength
  | notDigit (byte : UInt8) (position : Nat)
  deriving DecidableEq

def Error.message : Error → String
  | oddLength => "cant decode program OddLength"
  | notDigit byte position =>
    "cant decode program InvalidHexCharacter \x7b c: " ++ CharLiteral.quoted byte ++
      ", index: " ++ toString position ++ " \x7d"

def essence (text : String) : List UInt8 :=
  (text.toList.filter fun c => !isBlank c).flatMap String.utf8EncodeChar

/-- The first byte that is no digit, with its position counted from `position`. -/
def notDigit? : List UInt8 → Nat → Option Error
  | [], _ => none
  | b :: bytes, position =>
    match Hexadecimal.value? b with
    | none => some (.notDigit b position)
    | some _ => notDigit? bytes (position + 1)

def byteOf (high low : UInt8) : UInt8 :=
  UInt8.ofNat ((Hexadecimal.value? high).getD 0 * 16 + (Hexadecimal.value? low).getD 0)

def bytesOf : List UInt8 → List UInt8
  | high :: low :: digits => byteOf high low :: bytesOf digits
  | _ => []

def parse (text : String) : Except Error (List UInt8) :=
  let digits := essence text
  if digits.length % 2 = 1 then .error .oddLength
  else
    match notDigit? digits 0 with
    | some e => .error e
    | none => .ok (bytesOf digits)

/-- A program that draws a small sprite from a subroutine and then spins. -/
def demo : String := "611E620EA21C00E06301640253402214120C00007301D12400EE0000183C7EFF0000"

end Chip8.ProgramText
