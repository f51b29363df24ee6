/-!
# Keys of the number pad

The sixteen keys of the machine lie on a number pad: the digits, then `/ * - +`, Enter and the point.
-/

set_option autoImplicit false

namespace Chip8

/-- A key of the keyboard. The keys that write no character, Enter apart, are not told apart. -/
inductive Key where
  | char (c : Char)
  | enter
  | other
  deriving DecidableEq

namespace Key

def pad : Vector Key 16 :=
  #v[.char '0', .char '1', .char '2', .char '3', .char '4', .char '5', .char '6', .char '7',
    .char '8', .char '9', .char '/', .char '*', .char '-', .char '+', .enter, .char '.']

def padIndex? (k : Key) : Option (Fin 16) := pad.finIdxOf? k

end Key

end Chip8
