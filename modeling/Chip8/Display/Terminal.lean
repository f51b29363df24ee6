import Chip8.Display.Screen

/-!
# Painting on a terminal

The text that paints cells on a terminal. Rows and columns are counted from one there, and the row
comes first. A lit cell is a full block, a dark one a block that is printed hidden. After the last
cell the cursor is left below the picture.
-/

set_option autoImplicit false

namespace Chip8.Terminal

def control : String := "\x1b["

def moveTo (x y : Nat) : String :=
  control ++ toString (y + 1) ++ ";" ++ toString (x + 1) ++ "H"

def block : String := "█"

def hidden : String := control ++ "8m"

def reset : String := control ++ "0m"

def cell (p : Paint) : String :=
  moveTo p.x p.y ++ if p.lit then block else hidden ++ block ++ reset

def rest : String := moveTo 0 33

def frame (paints : List Paint) : String := String.join (paints.map cell) ++ rest

end Chip8.Terminal
