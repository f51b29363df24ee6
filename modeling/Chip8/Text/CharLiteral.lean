import Chip8.Text.Hexadecimal

/-!
# Character literals

How a message shows one character: between apostrophes, with a backslash before an apostrophe or a
backslash, short names for the commonest control characters, and the code point in braces for the
others and for the two characters above that leave no mark of their own, the no-break space and the
soft hyphen. Only code points below 256 are shown.
-/

set_option autoImplicit false

namespace Chip8.CharLiteral

/-- Control characters, the no-break space and the soft hyphen. -/
def isUnmarked (code : UInt8) : Bool :=
  code < 0x20 || (0x7F ≤ code && code ≤ 0xA0) || code == 0xAD

def body (code : UInt8) : String :=
  if code = 0 then "\\0"
  else if code = 9 then "\\t"
  else if code = 10 then "\\n"
  else if code = 13 then "\\r"
  else if code = 39 then "\\'"
  else if code = 92 then "\\\\"
  else if isUnmarked code then "\\u\x7b" ++ Hexadecimal.lower 1 code.toNat ++ "\x7d"
  else String.singleton (Char.ofNat code.toNat)

def quoted (code : UInt8) : String := "'" ++ body code ++ "'"

end Chip8.CharLiteral
