import Chip8.Instruction.Assembly
import Chip8.Journal.Record
import Chip8.Machine.Basic

/-!
# Events

What a machine reports while it works is a list of events, and each event is journalled as a record.
Events are data, so a threshold decides only which of them are written, never what happens.
-/

set_option autoImplicit false

namespace Chip8

structure Fault where
  opcode : UInt16
  pc : UInt16
  deriving DecidableEq

def Fault.message (f : Fault) : String :=
  (UnknownOpcode.mk f.opcode).message ++ " at " ++ Hexadecimal.marked 3 f.pc.toNat

inductive Event where
  | loaded (size : Nat)
  | resumed (key : UInt8) (register : Nat)
  | executing (pc opcode : UInt16) (instruction : Instruction)
  | awaiting (register : Nat)
  | soundCue (pc : UInt16)
  | faulted (fault : Fault)
  deriving DecidableEq

namespace Event

def severity : Event → Severity
  | loaded _ => .debug
  | resumed _ _ => .debug
  | executing _ _ _ => .trace
  | awaiting _ => .debug
  | soundCue _ => .debug
  | faulted _ => .error

def target : Event → String
  | loaded _ => "chip8_vm::state"
  | resumed _ _ => "chip8_vm::state"
  | executing _ _ _ => "chip8_vm::cpu"
  | awaiting _ => "chip8_vm::instructions"
  | soundCue _ => "chip8_vm::cpu"
  | faulted _ => "chip8_vm::cpu"

def message : Event → String
  | loaded size =>
    "loaded " ++ toString size ++ " program bytes at " ++ Hexadecimal.marked 3 programStart
  | resumed key register =>
    "resumed with key " ++ Hexadecimal.upper 1 key.toNat ++ " into " ++ registerName register
  | executing pc opcode instruction =>
    Hexadecimal.marked 3 pc.toNat ++ ": " ++ Hexadecimal.upper 4 opcode.toNat ++ " " ++
      instruction.text
  | awaiting register => "waiting for key into " ++ registerName register
  | soundCue pc => "sound cue at " ++ Hexadecimal.marked 3 pc.toNat
  | faulted fault => fault.message

def record (e : Event) : Record := ⟨e.severity, e.target, e.message⟩

end Event

namespace Threshold

def records (t : Threshold) (events : List Event) : List Record :=
  (events.filter fun e => t.admits e.severity).map Event.record

end Threshold

end Chip8
