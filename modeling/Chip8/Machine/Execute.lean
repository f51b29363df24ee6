import Chip8.Instruction.Basic
import Chip8.Machine.Sprite

/-!
# Executing an instruction

What each instruction does to a machine, its program counter included. Arithmetic on bytes and
addresses wraps around. Where an instruction writes both a register and the flag register `VF`, the
flag is written last and so wins. A random byte is handed in; only `random` looks at it.
-/

set_option autoImplicit false

namespace Chip8.Machine

def flagRegister : Nat := 15

def advance (m : Machine) : Machine := { m with pc := m.pc + 2 }

def skipIf (condition : Bool) (m : Machine) : Machine :=
  { m with pc := m.pc + if condition then 4 else 2 }

def setFlag (m : Machine) (flag : Bool) : Machine :=
  m.setRegister flagRegister (if flag then 1 else 0)

/-- The registers that give the position are read before the flag is written. -/
def drawSprite (m : Machine) (x y rows : Nat) : Machine :=
  let cells := m.spriteCells (m.register x).toNat (m.register y).toNat rows
  let drawn := m.pixels.flipAll false cells
  { m.setFlag drawn.2 with pixels := drawn.1, drawFlag := true }

def storeDecimal (m : Machine) (x : Nat) : Machine :=
  let v := m.register x
  ((m.write m.index (v / 100)).write (m.index + 1) (v / 10 % 10)).write (m.index + 2) (v % 10)

def saveRegisters (m : Machine) : Nat → Machine
  | 0 => m
  | count + 1 =>
    (m.saveRegisters count).write (m.index + UInt16.ofNat count) (m.register count)

def loadRegisters (m : Machine) (count : Nat) : Machine :=
  { m with
    registers := Vector.ofFn fun k =>
      if k.val < count then m.read (m.index + UInt16.ofNat k) else m.register k }

def execute (random : UInt8) : Instruction → Machine → Machine
  | .clearScreen, m => advance { m with pixels := Vector.replicate 2048 0 }
  | .ret, m => advance { m.pop with pc := m.top }
  | .jump nnn, m => { m with pc := nnn }
  | .call nnn, m => { m.push m.pc with pc := nnn }
  | .skipEqByte x nn, m => m.skipIf (m.register x == nn)
  | .skipNeByte x nn, m => m.skipIf (m.register x != nn)
  | .skipEq x y, m => m.skipIf (m.register x == m.register y)
  | .skipNe x y, m => m.skipIf (m.register x != m.register y)
  | .loadByte x nn, m => advance (m.setRegister x nn)
  | .addByte x nn, m => advance (m.setRegister x (m.register x + nn))
  | .copy x y, m => advance (m.setRegister x (m.register y))
  | .or x y, m => advance (m.setRegister x (m.register x ||| m.register y))
  | .and x y, m => advance (m.setRegister x (m.register x &&& m.register y))
  | .xor x y, m => advance (m.setRegister x (m.register x ^^^ m.register y))
  | .add x y, m =>
    let a := m.register x
    let b := m.register y
    advance ((m.setRegister x (a + b)).setFlag (256 ≤ a.toNat + b.toNat))
  | .sub x y, m =>
    let a := m.register x
    let b := m.register y
    advance ((m.setRegister x (a - b)).setFlag (b ≤ a))
  | .subFrom x y, m =>
    let a := m.register x
    let b := m.register y
    advance ((m.setRegister x (b - a)).setFlag (a ≤ b))
  | .shiftRight x, m =>
    let a := m.register x
    advance ((m.setRegister x (a / 2)).setFlag (a % 2 == 1))
  | .shiftLeft x, m =>
    let a := m.register x
    advance ((m.setRegister x (a + a)).setFlag (128 ≤ a))
  | .setIndex nnn, m => advance { m with index := nnn }
  | .jumpOffset nnn, m => { m with pc := nnn + (m.register 0).toUInt16 }
  | .random x nn, m => advance (m.setRegister x (random &&& nn))
  | .draw x y n, m => advance (m.drawSprite x y n.toNat)
  | .skipKey x, m => m.skipIf (m.keyDown x)
  | .skipNoKey x, m => m.skipIf (!m.keyDown x)
  | .readDelay x, m => advance (m.setRegister x m.delay)
  | .awaitKey x, m => advance { m with mode := .awaitingKey x }
  | .setDelay x, m => advance { m with delay := m.register x }
  | .setSound x, m => advance { m with sound := m.register x }
  | .addIndex x, m => advance { m with index := m.index + (m.register x).toUInt16 }
  | .glyph x, m => advance { m with index := (m.register x).toUInt16 * glyphSize }
  | .storeDecimal x, m => advance (m.storeDecimal x)
  | .saveRegisters x, m => advance (m.saveRegisters (x + 1))
  | .loadRegisters x, m => advance (m.loadRegisters (x + 1))

def obey (m : Machine) (i : Instruction) : Machine :=
  match i.usesTape with
  | true => { m.execute m.tape.byte i with tape := m.tape.next }
  | false => m.execute 0 i

end Chip8.Machine
