import Chip8.Machine.Basic

/-!
# Sprites

A sprite is a number of bytes from the index register on, one row each, the upper bit leftmost.
Drawing one flips the screen cells under its set bits, one after the other; both directions wrap
around, so a sprite of more than thirty-two rows comes back to cells that it has flipped already.
-/

set_option autoImplicit false

namespace Chip8

namespace Pixels

def flip (pixels : Pixels) (hit : Bool) (c : Fin 2048) : Pixels × Bool :=
  (pixels.setCell c (pixels.cell c ^^^ 1), hit || pixels.lit c)

def flipAll (pixels : Pixels) (hit : Bool) : List (Fin 2048) → Pixels × Bool
  | [] => (pixels, hit)
  | c :: cells =>
    let next := pixels.flip hit c
    flipAll next.1 next.2 cells

theorem flipAll_append (pixels : Pixels) (hit : Bool) (cells rest : List (Fin 2048)) :
    flipAll pixels hit (cells ++ rest) =
      flipAll (flipAll pixels hit cells).1 (flipAll pixels hit cells).2 rest := by
  induction cells generalizing pixels hit with
  | nil => rfl
  | cons c cells ih => simp only [List.cons_append, flipAll, ih]

end Pixels

namespace Machine

def rowCells (m : Machine) (x y r : Nat) : List (Fin 2048) :=
  let row := m.read (m.index + UInt16.ofNat r)
  ((List.range 8).filter fun c => bit row (7 - c)).map fun c => pixelOf (x + c) (y + r)

/-- The cells under the set bits of a sprite at column `x` and row `y`, from the top row down. -/
def spriteCells (m : Machine) (x y rows : Nat) : List (Fin 2048) :=
  (List.range rows).flatMap (m.rowCells x y)

end Machine

end Chip8
