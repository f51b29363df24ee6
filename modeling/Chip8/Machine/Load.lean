import Chip8.Machine.Basic

/-!
# Loading a program

A program is copied into memory from address 0x200 on, if there is room for all of it; the rest of
the machine is left alone, whatever it is doing.
-/

set_option autoImplicit false

namespace Chip8

def programCapacity : Nat := 4096 - programStart

structure Oversize where
  size : Nat
  capacity : Nat
  deriving DecidableEq

def Oversize.message (e : Oversize) : String :=
  "cannot load program: " ++ toString e.size ++ " bytes exceed the " ++
    toString e.capacity ++ " bytes of program space"

/-- What does not fit is dropped. -/
def Memory.place (memory : Memory) (program : Array UInt8) : Memory :=
  Vector.ofFn fun i =>
    if programStart ≤ i.val then program[i.val - programStart]?.getD memory[i] else memory[i]

namespace Machine

def load (m : Machine) (program : List UInt8) : Except Oversize Machine :=
  if programCapacity < program.length then .error ⟨program.length, programCapacity⟩
  else .ok { m with memory := Memory.place m.memory program.toArray }

end Machine

end Chip8
