import Chip8.Journal.Event
import Chip8.Machine.Execute

/-!
# Cycles

One cycle fetches a word, decodes it, executes the instruction and lets the timers run down by one.
A machine that waits for a key does nothing. A word that stands for no instruction is a fault: it is
kept as the machine's opcode, and nothing else changes, so the next cycle faults again.

A batch is a number of cycles in a row that ends early at a fault or where a key is awaited.
-/

set_option autoImplicit false

namespace Chip8

structure Cycle where
  machine : Machine
  events : List Event
  fault : Option Fault

structure Batch where
  machine : Machine
  events : Array Event
  executed : Nat
  soundCue : Bool
  fault : Option Fault

namespace Machine

def decay (m : Machine) : Machine :=
  { m with
    delay := if m.delay = 0 then 0 else m.delay - 1
    beep := m.sound == 1
    sound := if m.sound = 0 then 0 else m.sound - 1 }

def notices : Instruction → List Event
  | .awaitKey x => [.awaiting x]
  | _ => []

def cue (m : Machine) (pc : UInt16) : List Event := if m.beep then [.soundCue pc] else []

def cycle (m : Machine) : Cycle :=
  match m.mode with
  | .awaitingKey _ => ⟨m, [], none⟩
  | .running =>
    let pc := m.pc
    let word := m.readWord pc
    match Instruction.decode? word with
    | none => ⟨{ m with opcode := word }, [.faulted ⟨word, pc⟩], some ⟨word, pc⟩⟩
    | some i =>
      let after := (obey { m with opcode := word } i).decay
      ⟨after, .executing pc word i :: (notices i ++ after.cue pc), none⟩

end Machine

namespace Batch

def start (m : Machine) : Batch := ⟨m, #[], 0, false, none⟩

def ended (b : Batch) : Bool := b.fault.isSome || b.machine.isAwaiting

/-- A cycle that faults is not counted as executed. -/
def advance (b : Batch) : Batch :=
  let c := b.machine.cycle
  match c.fault with
  | some f => { b with machine := c.machine, events := b.events ++ c.events, fault := some f }
  | none =>
    { b with
      machine := c.machine
      events := b.events ++ c.events
      executed := b.executed + 1
      soundCue := b.soundCue || c.machine.beep }

def extend : Nat → Batch → Batch
  | 0, b => b
  | n + 1, b => if b.ended then b else extend n b.advance

theorem extend_of_ended {b : Batch} (h : b.ended = true) (n : Nat) : extend n b = b := by
  cases n with
  | zero => rfl
  | succ n => simp only [extend, h, if_true]

theorem extend_add (a n : Nat) (b : Batch) : extend (a + n) b = extend n (extend a b) := by
  induction a generalizing b with
  | zero => rw [Nat.zero_add]; rfl
  | succ a ih =>
    rw [Nat.succ_add]
    cases h : b.ended with
    | true => rw [extend_of_ended h, extend_of_ended h, extend_of_ended h]
    | false => simpa only [extend, h, Bool.false_eq_true, if_false] using ih b.advance

end Batch

def Machine.run (m : Machine) (n : Nat) : Batch := (Batch.start m).extend n

end Chip8
