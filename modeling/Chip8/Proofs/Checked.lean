import Chip8.Console

/-!
# Checked operation

The actions of a console once more, with a look at every index and at every sum, difference and
product that is not meant to wrap around. Nothing comes of an action that would read or write past
the end of an array or leave the range of a number: bytes, words of sixteen bits, and counts and
indices, which range below `limit`. A sprite is drawn cell by cell here, and registers are saved and
loaded one after the other.
-/

set_option autoImplicit false

namespace Chip8

/-- `n` as an index into `bound` cells, or as a number of a type that has `bound` values. -/
def below (bound n : Nat) : Option Nat := if n < bound then some n else none

def minus (a b : Nat) : Option Nat := if b ≤ a then some (a - b) else none

def bit? (b : UInt8) (i : Nat) : Option Bool := (below 8 i).map (bit b)

namespace Machine

def register? (m : Machine) (x : Nat) : Option UInt8 := m.registers[x]?

def setRegister? (m : Machine) (x : Nat) (value : UInt8) : Option Machine :=
  (below 16 x).map fun x => m.setRegister x value

def setFlag? (m : Machine) (flag : Bool) : Option Machine :=
  m.setRegister? flagRegister (if flag then 1 else 0)

def keyDown? (m : Machine) (x : Nat) : Option Bool := m.keys[x]?.map (· != 0)

def read? (m : Machine) (address : UInt16) : Option UInt8 := m.memory[address.toNat % 4096]?

def write? (m : Machine) (address : UInt16) (value : UInt8) : Option Machine :=
  (below 4096 (address.toNat % 4096)).map fun _ => m.write address value

def readWord? (m : Machine) (address : UInt16) : Option UInt16 := do
  let high ← m.read? address
  let low ← m.read? (address + 1)
  some (Word.ofBytes high low)

def push? (limit : Nat) (m : Machine) (address : UInt16) : Option Machine := do
  let k ← below 16 m.sp
  let next ← below limit (m.sp + 1)
  some { m with stack := m.stack.setIfInBounds k address, sp := next % 16 }

def pop? (limit : Nat) (m : Machine) : Option (UInt16 × Machine) := do
  let raised ← below limit (m.sp + 16)
  let k ← minus raised 1
  let address ← m.stack[k % 16]?
  some (address, { m with sp := k % 16 })

def flip? (m : Machine) (c : Nat) : Option Machine := do
  let pixel ← m.pixels[c]?
  let m ← if pixel = 1 then m.setFlag? true else some m
  some { m with pixels := m.pixels.setIfInBounds c (pixel ^^^ 1) }

def drawColumn? (limit x y r : Nat) (row : UInt8) (m : Machine) (c : Nat) : Option Machine := do
  let i ← minus 7 c
  let lit ← bit? row i
  if lit then do
    let column ← below limit (x + c)
    let line ← below limit (y + r)
    let start ← below limit (line % 32 * 64)
    let cell ← below limit (column % 64 + start)
    m.flip? cell
  else some m

def drawRow? (limit x y : Nat) (m : Machine) (r : Nat) : Option Machine := do
  let row ← m.read? (m.index + UInt16.ofNat r)
  (List.range 8).foldlM (drawColumn? limit x y r row) m

def drawSprite? (limit : Nat) (m : Machine) (x y rows : Nat) : Option Machine := do
  let column ← m.register? x
  let line ← m.register? y
  let m ← m.setFlag? false
  let m ← (List.range rows).foldlM (drawRow? limit column.toNat line.toNat) m
  some { m with drawFlag := true }

def storeDecimal? (m : Machine) (x : Nat) : Option Machine := do
  let v ← m.register? x
  let i := m.index
  let m ← m.write? i (v / 100)
  let m ← m.write? (i + 1) (v / 10 % 10)
  m.write? (i + 2) (v % 10)

def saveRegisters? (m : Machine) : Nat → Option Machine
  | 0 => some m
  | count + 1 => do
    let m ← m.saveRegisters? count
    let v ← m.register? count
    m.write? (m.index + UInt16.ofNat count) v

def loadRegisters? (m : Machine) : Nat → Option Machine
  | 0 => some m
  | count + 1 => do
    let m ← m.loadRegisters? count
    let v ← m.read? (m.index + UInt16.ofNat count)
    m.setRegister? count v

def combine? (m : Machine) (x y : Nat) (f : UInt8 → UInt8 → UInt8) : Option Machine := do
  let b ← m.register? y
  let a ← m.register? x
  let m ← m.setRegister? x (f a b)
  some m.advance

def combineFlag? (m : Machine) (x y : Nat) (f : UInt8 → UInt8 → UInt8)
    (flag : UInt8 → UInt8 → Bool) : Option Machine := do
  let a ← m.register? x
  let b ← m.register? y
  let m ← m.setRegister? x (f a b)
  let m ← m.setFlag? (flag a b)
  some m.advance

def execute? (limit : Nat) (random : UInt8) : Instruction → Machine → Option Machine
  | .clearScreen, m => some (advance { m with pixels := Vector.replicate 2048 0 })
  | .ret, m => do
    let (address, m) ← m.pop? limit
    some (advance { m with pc := address })
  | .jump nnn, m => some { m with pc := nnn }
  | .call nnn, m => do
    let m ← m.push? limit m.pc
    some { m with pc := nnn }
  | .skipEqByte x nn, m => do
    let a ← m.register? x
    some (m.skipIf (a == nn))
  | .skipNeByte x nn, m => do
    let a ← m.register? x
    some (m.skipIf (a != nn))
  | .skipEq x y, m => do
    let a ← m.register? x
    let b ← m.register? y
    some (m.skipIf (a == b))
  | .skipNe x y, m => do
    let a ← m.register? x
    let b ← m.register? y
    some (m.skipIf (a != b))
  | .loadByte x nn, m => do
    let m ← m.setRegister? x nn
    some m.advance
  | .addByte x nn, m => m.combine? x x fun a _ => a + nn
  | .copy x y, m => m.combine? x y fun _ b => b
  | .or x y, m => m.combine? x y fun a b => a ||| b
  | .and x y, m => m.combine? x y fun a b => a &&& b
  | .xor x y, m => m.combine? x y fun a b => a ^^^ b
  | .add x y, m =>
    m.combineFlag? x y (fun a b => a + b) fun a b => decide (256 ≤ a.toNat + b.toNat)
  | .sub x y, m => m.combineFlag? x y (fun a b => a - b) fun a b => decide (b ≤ a)
  | .subFrom x y, m => m.combineFlag? x y (fun a b => b - a) fun a b => decide (a ≤ b)
  | .shiftRight x, m => m.combineFlag? x x (fun a _ => a / 2) fun a _ => a % 2 == 1
  | .shiftLeft x, m => m.combineFlag? x x (fun a _ => a + a) fun a _ => decide (128 ≤ a)
  | .setIndex nnn, m => some (advance { m with index := nnn })
  | .jumpOffset nnn, m => do
    let a ← m.register? 0
    some { m with pc := nnn + a.toUInt16 }
  | .random x nn, m => do
    let m ← m.setRegister? x (random &&& nn)
    some m.advance
  | .draw x y n, m => do
    let m ← m.drawSprite? limit x y n.toNat
    some m.advance
  | .skipKey x, m => do
    let down ← m.keyDown? x
    some (m.skipIf down)
  | .skipNoKey x, m => do
    let down ← m.keyDown? x
    some (m.skipIf (!down))
  | .readDelay x, m => do
    let m ← m.setRegister? x m.delay
    some m.advance
  | .awaitKey x, m => some (advance { m with mode := .awaitingKey x })
  | .setDelay x, m => do
    let a ← m.register? x
    some (advance { m with delay := a })
  | .setSound x, m => do
    let a ← m.register? x
    some (advance { m with sound := a })
  | .addIndex x, m => do
    let a ← m.register? x
    some (advance { m with index := m.index + a.toUInt16 })
  | .glyph x, m => do
    let a ← m.register? x
    let i ← below 65536 (a.toNat * glyphSize.toNat)
    some (advance { m with index := UInt16.ofNat i })
  | .storeDecimal x, m => do
    let m ← m.storeDecimal? x
    some m.advance
  | .saveRegisters x, m => do
    let m ← m.saveRegisters? (x + 1)
    some m.advance
  | .loadRegisters x, m => do
    let m ← m.loadRegisters? (x + 1)
    some m.advance

def obey? (limit : Nat) (m : Machine) (i : Instruction) : Option Machine :=
  match i.usesTape with
  | true => do
    let after ← m.execute? limit m.tape.byte i
    some { after with tape := m.tape.next }
  | false => m.execute? limit 0 i

def countDown? (v : UInt8) : Option UInt8 :=
  if v = 0 then some 0 else (minus v.toNat 1).map UInt8.ofNat

def decay? (m : Machine) : Option Machine := do
  let delay ← countDown? m.delay
  let sound ← countDown? m.sound
  some { m with delay := delay, beep := m.sound == 1, sound := sound }

def cycle? (limit : Nat) (m : Machine) : Option Cycle :=
  match m.mode with
  | .awaitingKey _ => some ⟨m, [], none⟩
  | .running => do
    let pc := m.pc
    let word ← m.readWord? pc
    match Instruction.decode? word with
    | none => some ⟨{ m with opcode := word }, [.faulted ⟨word, pc⟩], some ⟨word, pc⟩⟩
    | some i => do
      let obeyed ← obey? limit { m with opcode := word } i
      let after ← obeyed.decay?
      some ⟨after, .executing pc word i :: (notices i ++ after.cue pc), none⟩

def resume? (m : Machine) (key : UInt8) : Option Machine :=
  match m.mode with
  | .running => some m
  | .awaitingKey x => do
    let m ← m.setRegister? x (key % 16)
    some { m with mode := .running }

def load? (limit : Nat) (m : Machine) (program : List UInt8) : Option (Except Oversize Machine) :=
  if programCapacity < program.length then some (.error ⟨program.length, programCapacity⟩)
  else do
    let stop ← below limit (programStart + program.length)
    let _ ← below (4096 + 1) stop
    some (.ok { m with memory := Memory.place m.memory program.toArray })

end Machine

namespace Batch

def advance? (limit : Nat) (b : Batch) : Option Batch := do
  let c ← b.machine.cycle? limit
  match c.fault with
  | some f => some { b with machine := c.machine, events := b.events ++ c.events, fault := some f }
  | none => do
    let executed ← below limit (b.executed + 1)
    some
      { b with
        machine := c.machine
        events := b.events ++ c.events
        executed := executed
        soundCue := b.soundCue || c.machine.beep }

def extend? (limit : Nat) : Nat → Batch → Option Batch
  | 0, b => some b
  | n + 1, b => if b.ended then some b else (b.advance? limit).bind (extend? limit n)

end Batch

def Machine.run? (limit : Nat) (m : Machine) (n : Nat) : Option Batch :=
  (Batch.start m).extend? limit n

def HeldKeys.press? (h : HeldKeys) (k : Nat) : Option HeldKeys :=
  (below 16 k).map fun k => { h with remaining := h.remaining.setIfInBounds k h.hold }

namespace Screen

def paint? (limit : Nat) (s : Screen) (pixels : Pixels) (y x : Nat) : Option (List Paint) := do
  let start ← below limit (y * width)
  let c ← below limit (x + start)
  let pixel ← pixels[c]?
  let stale ←
    match s.last with
    | none => some true
    | some shown => do
      let old ← shown[c]?
      some (old != pixel)
  some (if stale then [⟨x, y, pixel == 1⟩] else [])

def changes? (limit : Nat) (s : Screen) (pixels : Pixels) : Option (List Paint) := do
  let rows ← (List.range height).mapM fun y =>
    (List.range width).mapM (s.paint? limit pixels y)
  some rows.flatten.flatten

end Screen

namespace Terminal

/-- Coordinates on a terminal are words of sixteen bits that count from one. -/
def cell? (p : Paint) : Option String := do
  let _ ← below 65536 (p.y + 1)
  let _ ← below 65536 (p.x + 1)
  some (cell p)

def frame? (paints : List Paint) : Option String := do
  let cells ← paints.mapM cell?
  some (String.join cells ++ rest)

end Terminal

namespace Console

def pressKey? (c : Console) (k : Fin 16) : Option Reply := do
  let key := UInt8.ofNat k
  let held ← c.held.press? k
  let machine ← (c.machine.setKey k true).resume? key
  some
    { console := { c with machine := machine, held := held }
      answer := .key (some k)
      events := c.machine.resumeEvents key }

def display? (limit : Nat) (c : Console) (pixels : Pixels) : Option (Console × List Paint) := do
  let paints ← c.screen.changes? limit pixels
  some ({ c with screen := .showing pixels }, paints)

def nextFrame? (limit : Nat) (c : Console) : Option (Console × Option (List Paint)) :=
  let taken := { c with machine := c.machine.clearDrawFlag }
  if c.machine.drawFlag || c.screen.isBlank then do
    let (shown, paints) ← taken.display? limit c.machine.pixels
    some (shown, some paints)
  else some (taken, none)

/-- An action on a host whose counts and indices range below `limit`. -/
def perform? (limit : Nat) (c : Console) : Action → Option Reply
  | .load program => do
    match ← c.machine.load? limit program with
    | .ok m => some ⟨{ c with machine := m }, .done, [.loaded program.length]⟩
    | .error e => some ⟨c, .oversize e, []⟩
  | .step => do
    let cycle ← c.machine.cycle? limit
    let answer :=
      match cycle.fault with
      | some f => .fault f
      | none => .done
    some ⟨{ c with machine := cycle.machine }, answer, cycle.events⟩
  | .run cycles => do
    let batch ← c.machine.run? limit cycles
    some ⟨{ c with machine := batch.machine }, batch.answer, batch.events.toList⟩
  | .resume key => do
    let m ← c.machine.resume? key
    some ⟨{ c with machine := m }, .flag c.machine.isAwaiting, c.machine.resumeEvents key⟩
  | .setKey key down => some ⟨{ c with machine := c.machine.setKey key down }, .done, []⟩
  | .clearKeys => some ⟨{ c with machine := c.machine.clearKeys }, .done, []⟩
  | .press key =>
    match key.padIndex? with
    | some k => c.pressKey? k
    | none => some ⟨c, .key none, []⟩
  | .tick => some ⟨c.tick, .done, []⟩
  | .takeDrawFlag =>
    some ⟨{ c with machine := c.machine.clearDrawFlag }, .flag c.machine.drawFlag, []⟩
  | .nextFrame => do
    let (next, paints) ← c.nextFrame? limit
    some ⟨next, .frame paints, []⟩
  | .changes pixels => do
    let (shown, paints) ← c.display? limit pixels
    some ⟨shown, .paints paints, []⟩
  | .present => do
    let (next, paints) ← c.nextFrame? limit
    let text ← paints.mapM Terminal.frame?
    some ⟨next, .drawn text, []⟩

end Console

end Chip8
