import Chip8.Display.Terminal
import Chip8.Input.HeldKeys
import Chip8.Machine.Cycle
import Chip8.Machine.Load

/-!
# Console

A machine with its held keys and its screen, and the actions that the outside performs on them. An
action yields the console after it, an answer, and the events to be journalled. Nothing else reaches
a machine from outside, so what holds of every action holds of every history.
-/

set_option autoImplicit false

namespace Chip8

structure Console where
  machine : Machine
  held : HeldKeys
  screen : Screen

inductive Action where
  | load (program : List UInt8)
  | step
  | run (cycles : Nat)
  | resume (key : UInt8)
  | setKey (key : Nat) (down : Bool)
  | clearKeys
  | press (key : Key)
  | tick
  | takeDrawFlag
  | nextFrame
  | changes (pixels : Pixels)
  | present

inductive Answer where
  | done
  | oversize (e : Oversize)
  | fault (f : Fault)
  | ran (executed : Nat) (soundCue : Bool)
  | flag (b : Bool)
  | key (k : Option (Fin 16))
  | paints (cells : List Paint)
  | frame (cells : Option (List Paint))
  | drawn (text : Option String)
  deriving DecidableEq

structure Reply where
  console : Console
  answer : Answer
  events : List Event

def Machine.resumeEvents (m : Machine) (key : UInt8) : List Event :=
  match m.mode with
  | .running => []
  | .awaitingKey x => [.resumed (key % 16) x]

def Batch.answer (b : Batch) : Answer :=
  match b.fault with
  | some f => .fault f
  | none => .ran b.executed b.soundCue

namespace Console

def fresh (tape : Tape) (hold : Nat) : Console := ⟨.fresh tape, .ofHold hold, .blank⟩

def pressKey (c : Console) (k : Fin 16) : Reply :=
  let key := UInt8.ofNat k
  { console :=
      { c with machine := (c.machine.setKey k true).resume key, held := c.held.press k }
    answer := .key (some k)
    events := c.machine.resumeEvents key }

def tick (c : Console) : Console :=
  { c with machine := c.machine.setKeys c.held.tick, held := c.held.tick }

def display (c : Console) (pixels : Pixels) : Console × List Paint :=
  ({ c with screen := .showing pixels }, c.screen.changes pixels)

/-- There is a frame if the draw flag was up or nothing has been shown yet. -/
def nextFrame (c : Console) : Console × Option (List Paint) :=
  let taken := { c with machine := c.machine.clearDrawFlag }
  if c.machine.drawFlag || c.screen.isBlank then
    let shown := taken.display c.machine.pixels
    (shown.1, some shown.2)
  else (taken, none)

def perform (c : Console) : Action → Reply
  | .load program =>
    match c.machine.load program with
    | .ok m => ⟨{ c with machine := m }, .done, [.loaded program.length]⟩
    | .error e => ⟨c, .oversize e, []⟩
  | .step =>
    let cycle := c.machine.cycle
    let answer :=
      match cycle.fault with
      | some f => .fault f
      | none => .done
    ⟨{ c with machine := cycle.machine }, answer, cycle.events⟩
  | .run cycles =>
    let batch := c.machine.run cycles
    ⟨{ c with machine := batch.machine }, batch.answer, batch.events.toList⟩
  | .resume key =>
    ⟨{ c with machine := c.machine.resume key }, .flag c.machine.isAwaiting,
      c.machine.resumeEvents key⟩
  | .setKey key down => ⟨{ c with machine := c.machine.setKey key down }, .done, []⟩
  | .clearKeys => ⟨{ c with machine := c.machine.clearKeys }, .done, []⟩
  | .press key =>
    match key.padIndex? with
    | some k => c.pressKey k
    | none => ⟨c, .key none, []⟩
  | .tick => ⟨c.tick, .done, []⟩
  | .takeDrawFlag =>
    ⟨{ c with machine := c.machine.clearDrawFlag }, .flag c.machine.drawFlag, []⟩
  | .nextFrame =>
    let next := c.nextFrame
    ⟨next.1, .frame next.2, []⟩
  | .changes pixels =>
    let shown := c.display pixels
    ⟨shown.1, .paints shown.2, []⟩
  | .present =>
    let next := c.nextFrame
    ⟨next.1, .drawn (next.2.map Terminal.frame), []⟩

def frameActions (presses : List Key) (cycles : Nat) : List Action :=
  .tick :: (presses.map .press ++ [.run cycles, .present])

end Console

end Chip8
