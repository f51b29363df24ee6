/-!
# Decimal numbers in text

A number is one ASCII digit or more, with at most a plus sign before them, and has to be below a
bound. Signed readers also take a minus sign, and then accept nothing but zero after it, because no
bound admits a negative number.
-/

set_option autoImplicit false

namespace Chip8.Number

def isDigit (c : Char) : Bool := '0' ≤ c && c ≤ '9'

def value (digits : List Char) : Nat :=
  digits.foldl (fun n c => n * 10 + (c.toNat - '0'.toNat)) 0

def unsigned? (cs : List Char) : Option Nat :=
  if cs.isEmpty || !cs.all isDigit then none else some (value cs)

def natural? (bound : Nat) (text : String) : Option Nat :=
  let magnitude :=
    match text.toList with
    | '+' :: cs => unsigned? cs
    | cs => unsigned? cs
  magnitude.filter (· < bound)

/-- The same for a reader of signed numbers. -/
def signed? (bound : Nat) (text : String) : Option Nat :=
  match text.toList with
  | '-' :: cs => (unsigned? cs).filter (· = 0)
  | _ => natural? bound text

end Chip8.Number
