import Chip8.Machine.Basic

/-!
# Screen

A screen remembers the pixels that it showed last and reports which cells have to be painted to show
others. Pixels are compared as bytes, though only the value 1 is shown lit. Nothing is remembered at
first, so the first report names every cell.
-/

set_option autoImplicit false

namespace Chip8

/-- An order to show the cell in column `x` and row `y` lit or dark. -/
structure Paint where
  x : Nat
  y : Nat
  lit : Bool
  deriving DecidableEq

structure Screen where
  last : Option Pixels
  deriving DecidableEq

namespace Screen

def width : Nat := 64

def height : Nat := 32

def blank : Screen := ⟨none⟩

def showing (pixels : Pixels) : Screen := ⟨some pixels⟩

def isBlank (s : Screen) : Bool := s.last.isNone

def differs (s : Screen) (pixels : Pixels) (c : Fin 2048) : Bool :=
  match s.last with
  | none => true
  | some shown => shown.cell c != pixels.cell c

def paintOf (pixels : Pixels) (c : Fin 2048) : Paint :=
  ⟨c.val % 64, c.val / 64, pixels.lit c⟩

def changes (s : Screen) (pixels : Pixels) : List Paint :=
  ((List.finRange 2048).filter (s.differs pixels)).map (paintOf pixels)

end Screen

end Chip8
