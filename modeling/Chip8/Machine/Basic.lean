import Chip8.Random.Tape
import Chip8.Word

/-!
# Machine

The state of a machine and the ways to look at it and to change one part of it. Memory has 4096
cells and every address is taken modulo 4096, so an address of sixteen bits never misses. The stack
is a ring of sixteen slots. A register number past the last register reads as zero and is not
written to; decoded instructions have none.
-/

set_option autoImplicit false

namespace Chip8

/-- Whether a machine runs, or waits for a key whose number goes into `register`. -/
inductive Mode where
  | running
  | awaitingKey (register : Nat)
  deriving DecidableEq

abbrev Memory := Vector UInt8 4096

/-- Thirty-two rows of sixty-four cells, row by row; a cell is lit when it is 1. -/
abbrev Pixels := Vector UInt8 2048

structure Machine where
  memory : Memory
  registers : Vector UInt8 16
  index : UInt16
  pc : UInt16
  sp : Nat
  stack : Vector UInt16 16
  pixels : Pixels
  keys : Vector UInt8 16
  delay : UInt8
  sound : UInt8
  opcode : UInt16
  drawFlag : Bool
  beep : Bool
  mode : Mode
  tape : Tape

def font : Vector UInt8 80 :=
  #v[0xF0, 0x90, 0x90, 0x90, 0xF0,
    0x20, 0x60, 0x20, 0x20, 0x70,
    0xF0, 0x10, 0xF0, 0x80, 0xF0,
    0xF0, 0x10, 0xF0, 0x10, 0xF0,
    0x90, 0x90, 0xF0, 0x10, 0x10,
    0xF0, 0x80, 0xF0, 0x10, 0xF0,
    0xF0, 0x80, 0xF0, 0x90, 0xF0,
    0xF0, 0x10, 0x20, 0x40, 0x40,
    0xF0, 0x90, 0xF0, 0x90, 0xF0,
    0xF0, 0x90, 0xF0, 0x10, 0xF0,
    0xF0, 0x90, 0xF0, 0x90, 0x90,
    0xE0, 0x90, 0xE0, 0x90, 0xE0,
    0xF0, 0x80, 0x80, 0x80, 0xF0,
    0xE0, 0x90, 0x90, 0x90, 0xE0,
    0xF0, 0x80, 0xF0, 0x80, 0xF0,
    0xF0, 0x80, 0xF0, 0x80, 0x80]

def glyphSize : UInt16 := 5

def programStart : Nat := 0x200

def cellOf (address : UInt16) : Fin 4096 := ⟨address.toNat % 4096, Nat.mod_lt _ (by decide)⟩

def slotOf (n : Nat) : Fin 16 := ⟨n % 16, Nat.mod_lt _ (by decide)⟩

def pixelOf (x y : Nat) : Fin 2048 := ⟨x % 64 + y % 32 * 64, by omega⟩

namespace Pixels

def cell (pixels : Pixels) (c : Fin 2048) : UInt8 := pixels[c]

def setCell (pixels : Pixels) (c : Fin 2048) (value : UInt8) : Pixels := pixels.set c value

def lit (pixels : Pixels) (c : Fin 2048) : Bool := pixels.cell c == 1

theorem cell_setCell (pixels : Pixels) (c d : Fin 2048) (value : UInt8) :
    (pixels.setCell c value).cell d = if c = d then value else pixels.cell d := by
  simp [cell, setCell, Vector.getElem_set, Fin.ext_iff]

end Pixels

namespace Machine

def fresh (tape : Tape) : Machine where
  memory := Vector.ofFn fun i => font[i.val]?.getD 0
  registers := Vector.replicate 16 0
  index := 0
  pc := UInt16.ofNat programStart
  sp := 0
  stack := Vector.replicate 16 0
  pixels := Vector.replicate 2048 0
  keys := Vector.replicate 16 0
  delay := 0
  sound := 0
  opcode := 0
  drawFlag := false
  beep := false
  mode := .running
  tape := tape

def read (m : Machine) (address : UInt16) : UInt8 := m.memory[cellOf address]

def write (m : Machine) (address : UInt16) (value : UInt8) : Machine :=
  { m with memory := m.memory.set (cellOf address) value }

def readWord (m : Machine) (address : UInt16) : UInt16 :=
  Word.ofBytes (m.read address) (m.read (address + 1))

def register (m : Machine) (x : Nat) : UInt8 := m.registers[x]?.getD 0

def setRegister (m : Machine) (x : Nat) (value : UInt8) : Machine :=
  { m with registers := m.registers.setIfInBounds x value }

def slot (m : Machine) (k : Nat) : UInt16 := m.stack[k]?.getD 0

def push (m : Machine) (address : UInt16) : Machine :=
  { m with stack := m.stack.setIfInBounds m.sp address, sp := (m.sp + 1) % 16 }

/-- The slot that `pop` uncovers. -/
def top (m : Machine) : UInt16 := m.stack[slotOf (m.sp + 15)]

def pop (m : Machine) : Machine := { m with sp := (m.sp + 15) % 16 }

def pixel (m : Machine) (x y : Nat) : Bool := m.pixels.lit (pixelOf x y)

def keyDown (m : Machine) (x : Nat) : Bool := m.keys[x]?.getD 0 != 0

/-- A key past the last one is ignored. -/
def setKey (m : Machine) (k : Nat) (down : Bool) : Machine :=
  { m with keys := m.keys.setIfInBounds k (if down then 1 else 0) }

def clearKeys (m : Machine) : Machine := { m with keys := Vector.replicate 16 0 }

def isAwaiting (m : Machine) : Bool := m.mode != .running

/-- Of the key only the lower digit counts. -/
def resume (m : Machine) (key : UInt8) : Machine :=
  match m.mode with
  | .running => m
  | .awaitingKey x => { m.setRegister x (key % 16) with mode := .running }

def clearDrawFlag (m : Machine) : Machine := { m with drawFlag := false }

@[simp] theorem read_write_self (m : Machine) (a : UInt16) (v : UInt8) :
    (m.write a v).read a = v := by
  simp [read, write]

theorem read_write (m : Machine) (a b : UInt16) (v : UInt8) :
    (m.write a v).read b = if cellOf a = cellOf b then v else m.read b := by
  simp [read, write, Vector.getElem_set, Fin.ext_iff]

theorem register_setRegister (m : Machine) (x k : Nat) (v : UInt8) :
    (m.setRegister x v).register k = if x = k ∧ x < 16 then v else m.register k := by
  simp only [register, setRegister, Vector.getElem?_setIfInBounds]
  by_cases h : x = k
  · subst h
    by_cases hx : x < 16 <;> simp [hx]
  · simp [h]

theorem top_eq_slot (m : Machine) : m.top = m.slot ((m.sp + 15) % 16) := by
  have hs : (m.sp + 15) % 16 < 16 := Nat.mod_lt _ (by decide)
  simp [top, slot, slotOf, hs]

theorem slot_push (m : Machine) (a : UInt16) (k : Nat) :
    (m.push a).slot k = if m.sp = k ∧ k < 16 then a else m.slot k := by
  simp only [slot, push, Vector.getElem?_setIfInBounds]
  by_cases h : m.sp = k
  · subst h
    by_cases hk : m.sp < 16 <;> simp [hk]
  · simp [h]

theorem top_push (m : Machine) (a : UInt16) (h : m.sp < 16) : (m.push a).top = a := by
  have hs : ((m.sp + 1) % 16 + 15) % 16 = m.sp := by omega
  simp [top, push, slotOf, hs]

end Machine

end Chip8
